/-
  Sources selected by images (`tools/solve.py`, `source_build_set` and
  `rpm_source_policy_inputs`).

  The sources of every payload of a selected image set join the build set, except those that
  stay prebuilt. The policy is told the payloads with the source each is recorded under, and
  the names of the specs in the lock.
-/
import BuckosDistro.Policy.SourcePolicy
import BuckosDistro.Solve.Emitted

namespace BuckosDistro.Solve

open BuckosDistro.Lib BuckosDistro.Depgraph BuckosDistro.Policy

/-! ## The build set -/

/-- `source_of.get(package)`, where a source without a name is none. -/
def sourceOf? (sourceOf : Dict String String) (package : String) : Option String :=
  (sourceOf.get? package).filter (· ≠ "")

/-- `source_build_set` -/
def sourceBuildSet (imageSets : Dict String (List String)) (sourceOf : Dict String String)
    (selectedImageSets prebuiltSources : List String) : Except String (List String) :=
  let selected := PyText.sortedSet selectedImageSets
  if selected = [] then
    if prebuiltSources = [] then .ok []
    else .error ("prebuilt sources require --source-image: " ++
      PyText.join ", " (PyText.sortedSet prebuiltSources))
  else
    let missingSets := selected.filter (· ∉ imageSets.keys)
    if missingSets ≠ [] then
      .error ("source build selects missing image set(s): " ++ PyText.join ", " missingSets)
    else
      let payloads := selected.flatMap fun image =>
        (imageSets.getD image []).map fun package => (image, package)
      let missingSources := payloads.filter fun payload => (sourceOf? sourceOf payload.2).isNone
      if missingSources ≠ [] then
        .error ("image payloads have no source identity: " ++ PyText.join ", "
          ((missingSources.map fun payload => payload.1 ++ ":" ++ payload.2).insertionSort
            (· ≤ ·)))
      else
        let sources := payloads.filterMap fun payload => sourceOf? sourceOf payload.2
        let stale := PyText.sortedSet (prebuiltSources.filter (· ∉ sources))
        if stale ≠ [] then
          .error ("prebuilt sources do not produce a selected image payload: " ++
            PyText.join ", " stale)
        else .ok (sources.filter (· ∉ prebuiltSources))

section SourceBuildSet

variable {imageSets : Dict String (List String)} {sourceOf : Dict String String}
  {selected prebuilt sources : List String}

end SourceBuildSet

/-! ## What the policy is told -/

/-- `{"package": entry["name"], "source": entry.get("source")}` -/
def payloadOf (pin : Pin) : Payload := ⟨pin.name, pin.build.bind PinnedBuild.source⟩

/-- The payloads of an image set, in the order of their names. -/
def payloadsOf (pins : List Pin) : List Payload :=
  (pins.insertionSort fun a b => a.name ≤ b.name).map payloadOf

/-- The `images` of `rpm_source_policy_inputs`. -/
def policyImages (lock : Lock) (sourceImageSets : List String) : Dict String (List Payload) :=
  Dict.ofKeys (PyText.sortedSet sourceImageSets) fun name =>
    payloadsOf (lock.imageSets.getD name [])

/-- The `producers` of `rpm_source_policy_inputs`. -/
def policyProducers (lock : Lock) (prebuiltSources : List String) : List String :=
  (lock.packages.items.map fun item =>
    if item.2.source.sourceName = "" then item.2.source.name else item.2.source.sourceName).filter
    (· ∉ prebuiltSources)

end BuckosDistro.Solve
