/-
  The transitive closure over Requires (`tools/depgraph.py`, `runtime_closure`).

  The inner functions of `runtime_closure` read the set `seen` and the lookup maps, and
  append to three lists of the enclosing function: `pending`, `choices` and `problems`.
  Each of them is a function here, and an `Outcome` is what one call returns together with
  what it appends.

  The two loops are one machine. A `State` holds the local variables of the function, and
  `step` is one trip: a package popped from the frontier while there is one, else one pass
  over the pending expressions and the choices, which refills the frontier or ends the
  function. `run n` is `n` trips.
-/
import BuckosDistro.Depgraph.Boolean

namespace BuckosDistro.Depgraph

open BuckosDistro.Lib

/-! ## What a call leaves behind -/

/-- A reported problem: kind, text, and who is blamed. -/
structure Problem where
  kind : String
  detail : String
  who : String
deriving DecidableEq, Repr

/-- A decision put off: the expression, its alternatives, and who asked. -/
structure Choice where
  expression : String
  alternatives : List String
  who : String
deriving DecidableEq, Repr

/-- What a call returns (`none` is `None`: try again later) and what it appends. -/
structure Outcome where
  got : Option (List String)
  pending : List (Node × String)
  choices : List Choice
  problems : List Problem
deriving Repr

namespace Outcome

/-- Packages demanded now. -/
def found (pkgs : List String) : Outcome := ⟨some pkgs, [], [], []⟩

/-- Nothing to say yet. -/
def later : Outcome := ⟨none, [], [], []⟩

/-- Nothing demanded, a problem recorded. -/
def problem (kind detail who : String) : Outcome := ⟨some [], [], [], [⟨kind, detail, who⟩]⟩

/-- Nothing demanded, a decision put off. -/
def choice (expression : String) (alternatives : List String) (who : String) : Outcome :=
  ⟨some [], [], [⟨expression, alternatives, who⟩], []⟩

/-- The packages returned, none for `None`. -/
def pkgs (o : Outcome) : List String := o.got.getD []

/-- What the callers of `require` do with `None`: keep the expression for later. -/
def orPending (o : Outcome) (node : Node) (who : String) : Outcome :=
  match o.got with
  | some _ => o
  | none => { o with got := some [], pending := o.pending ++ [(node, who)] }

/-- One call after another: the results concatenated. -/
def andThen (o o' : Outcome) : Outcome :=
  ⟨some (o.pkgs ++ o'.pkgs), o.pending ++ o'.pending, o.choices ++ o'.choices,
    o.problems ++ o'.problems⟩

end Outcome

/-! ## Overrides -/

/-- The check of one override: what it answers must be provided, and by the package it
    names. A rich expression has no provider to be checked against. -/
def overrideProblem (overrides : Dict String String) (provides : Dict String (List String))
    (scope capability : String) : Option Problem :=
  let who := if scope = "" then "override" else scope
  if isRichDep capability || (parseOrDep capability).any (!·.isEmpty) then none
  else
    let package := overrides.getD capability ""
    match provides.getD capability [] with
    | [] => some ⟨"bad-override", "--override " ++ capability ++ "=" ++ package ++
        " names a capability nothing provides", who⟩
    | providers =>
      if package ∈ providers then none
      else some ⟨"bad-override", "--override " ++ capability ++ "=" ++ package ++ " but " ++
        package ++ " does not provide it; providers are " ++
        PyText.join ", " (PyText.sortedSet providers), who⟩

/-- `validate_overrides` -/
def validateOverrides (overrides : Dict String String) (provides : Dict String (List String))
    (scope : String) : List Problem :=
  (PyText.sortedSet overrides.keys).filterMap (overrideProblem overrides provides scope)

/-! ## Resolving a name or a range -/

/-- `resolve`: the provider, or a choice, or a problem. -/
def resolve (L : Lookup) (who cap : String) : Outcome :=
  match resolveCapability L cap who with
  | .ok pkg => .found [pkg]
  | .error (.ambiguousProvider _ candidates) => .choice cap (PyText.sortedSet candidates) who
  | .error exc => .problem "unresolved" exc.message who

/-- The candidates of a range: every provider of the name that meets each bound. -/
def rangeCandidates (L : Lookup) (name : String) (caps : List String) : List String :=
  caps.foldl (fun candidates cap => candidates.filter fun pkg =>
    anyVersionSatisfies (L.versions name pkg) (splitConstraint cap).2)
    (PyText.sortedSet (L.providers name))

/-- `resolve_range`: one provider satisfying every bound of a version range. -/
def resolveRange (L : Lookup) (who : String) (caps : List String) : Outcome :=
  let name := stripCapabilityVersion (caps.headD "")
  let text := PyText.join " with " caps
  match L.overrides.get? name with
  | some pkg => .found [pkg]
  | none =>
    if (L.providers name).isEmpty then
      .problem "unresolved" (ResolveError.unresolvedCapability text who).message who
    else
      match rangeCandidates L name caps with
      | [] =>
        .problem "unresolved" ("no build of " ++ name ++ " satisfies " ++ text ++
          "; providers are " ++ PyText.join ", " (PyText.sortedSet (L.providers name))) who
      | [pkg] => .found [pkg]
      | candidates =>
        match newest (candidates.flatMap fun pkg =>
            (L.versionList name pkg).map fun evr => (pkg, evr)) with
        | some pkg => .found [pkg]
        | none => .choice text candidates who

/-! ## Truth of the set so far -/

/-- `capability_present` -/
def capabilityPresent (L : Lookup) (seen : Finset String) (cap : String) : Bool :=
  match L.overrides.get? cap with
  | some pkg => pkg ∈ seen
  | none => (L.providers cap).any (· ∈ seen)

mutual

/-- `satisfied`: is the expression true of the closure so far? -/
def satisfied (L : Lookup) (seen : Finset String) : Node → Bool
  | .cap text => capabilityPresent L seen (stripCapabilityVersion text)
  | .or children => anySatisfied L seen children
  | .and children => allSatisfied L seen children
  | .with children => allSatisfied L seen children
  | .without left right => satisfied L seen left && !satisfied L seen right
  | .if then_ cond none => if satisfied L seen cond then satisfied L seen then_ else true
  | .if then_ cond (some other) =>
    if satisfied L seen cond then satisfied L seen then_ else satisfied L seen other
  | .unless then_ cond none => if satisfied L seen cond then true else satisfied L seen then_
  | .unless then_ cond (some other) =>
    if satisfied L seen cond then satisfied L seen other else satisfied L seen then_

def anySatisfied (L : Lookup) (seen : Finset String) : List Node → Bool
  | [] => false
  | child :: children => satisfied L seen child || anySatisfied L seen children

def allSatisfied (L : Lookup) (seen : Finset String) : List Node → Bool
  | [] => true
  | child :: children => satisfied L seen child && allSatisfied L seen children

end

/-! ## One package for several terms -/

/-- The providers of every name of a list. -/
def commonProviders (L : Lookup) : List String → Option (List String)
  | [] => none
  | name :: names =>
    some (names.foldl (fun candidates name => candidates.filter (· ∈ L.providers name))
      (PyText.sortedSet (L.providers name)))

/-- `intersect`: the packages a `with` or a `without` selects from, `none` when the terms
    cannot be read as names. A `without` reads the first leaf of each side. -/
def intersect (L : Lookup) : Node → Option (List String)
  | .with children => (leafNames (.with children)).bind (commonProviders L)
  | .without left right =>
    match leafNames left, leafNames right with
    | some (l :: _), some (r :: _) =>
      some ((PyText.sortedSet (L.providers l)).filter (· ∉ L.providers r))
    | _, _ => none
  | _ => none

/-- The bounds of a `with` whose leaves all name one capability. -/
def rangeBounds (node : Node) : Option (List String) :=
  match node with
  | .with _ =>
    match leafNames node with
    | some names => if names.dedup.length = 1 then leafCaps node else none
    | none => none
  | _ => none

/-- The `with` and `without` branch of `require`. -/
def requireTogether (L : Lookup) (who : String) (node : Node) : Outcome :=
  match rangeBounds node with
  | some (cap :: caps) => resolveRange L who (cap :: caps)
  | _ =>
    let text := unparseBoolean node
    match intersect L node with
    | none => .problem "rich" text who
    | some [pkg] => .found [pkg]
    | some candidates =>
      match L.overrides.get? text with
      | some pkg => .found [pkg]
      | none =>
        let shown := PyText.join ", " candidates
        .problem "unresolved" (text ++ " is satisfied by " ++ toString candidates.length ++
          " packages: " ++ (if shown = "" then "none" else shown)) who

/-- The loop of the `or` branch over the alternatives: the packages they resolve to by
    name, `none` once one of them is ambiguous. Versions are not passed on. -/
def live (L : Lookup) (who : String) : List String → Option (List String)
  | [] => some []
  | name :: names =>
    match resolveCapability { L with provideEvr := Dict.empty } name who with
    | .ok pkg => (live L who names).map (pkg :: ·)
    | .error (.unresolvedCapability _ _) => live L who names
    | .error (.ambiguousProvider _ _) => none

/-- The `or` branch of `require`, once no branch is true of the set. -/
def requireOneOf (L : Lookup) (who : String) (node : Node) : Outcome :=
  let text := unparseBoolean node
  match leafNames node with
  | none => .problem "rich" text who
  | some alternatives =>
    match L.overrides.get? text with
    | some pkg => .found [pkg]
    | none =>
      match (live L who alternatives).map PyText.sortedSet with
      | some [pkg] => .found [pkg]
      | _ => .choice text alternatives who

/-! ## What an expression demands -/

mutual

/-- `require`: the packages an expression demands now, or `none` to try again later.
    `final` is the fixed point telling `unless` that its escape hatch never arrived. -/
def require (L : Lookup) (seen : Finset String) (who : String) (final : Bool) :
    Node → Outcome
  | .cap text => resolve L who (stripCapabilityVersion text)
  | .and children => requireEach L seen who final children
  | .or children =>
    if anySatisfied L seen children then .found [] else requireOneOf L who (.or children)
  | .with children => requireTogether L who (.with children)
  | .without left right => requireTogether L who (.without left right)
  | .if then_ cond none =>
    if satisfied L seen cond then require L seen who final then_ else .later
  | .if then_ cond (some other) =>
    if satisfied L seen cond then require L seen who final then_
    else require L seen who final other
  | .unless then_ cond none =>
    if satisfied L seen cond then .found []
    else if final then require L seen who final then_ else .later
  | .unless then_ cond (some other) =>
    if satisfied L seen cond then require L seen who final other
    else if final then require L seen who final then_ else .later

/-- The `and` branch: each child in turn, the ones that say `None` kept for later. -/
def requireEach (L : Lookup) (seen : Finset String) (who : String) (final : Bool) :
    List Node → Outcome
  | [] => .found []
  | child :: children =>
    ((require L seen who final child).orPending child who).andThen
      (requireEach L seen who final children)

end

/-- `reduce_rich`: one rich requirement, deferred when it must be. -/
def reduceRich (L : Lookup) (seen : Finset String) (base pkg : String) : Outcome :=
  match parseBoolean base with
  | none => .problem "rich" base pkg
  | some node => (require L seen pkg false node).orPending node pkg

/-- One entry of a package's Requires. -/
def demand (L : Lookup) (seen : Finset String) (pkg cap : String) : Outcome :=
  let base := stripCapabilityVersion cap
  if isRichDep base then reduceRich L seen base pkg else resolve L pkg cap

/-- One entry of `extra`: a plain one is resolved by its bare name. -/
def demandExtra (L : Lookup) (seen : Finset String) (cap who : String) : Outcome :=
  let base := stripCapabilityVersion cap
  if isRichDep base then reduceRich L seen base who else resolve L who base

/-! ## The machine -/

/-- The local variables of `runtime_closure`. The frontier is a stack: its head is the end
    of the Python list. `done` is set by the `break` of the outer loop. -/
structure State where
  seen : Finset String
  frontier : List String
  pending : List (Node × String)
  choices : List Choice
  problems : List Problem
  done : Bool

namespace State

/-- The packages of `pkgs` not yet seen, appended to the frontier. -/
def push (s : State) (pkgs : List String) : State :=
  { s with frontier := (pkgs.filter (· ∉ s.seen)).reverse ++ s.frontier }

/-- The effect of one call on the local variables. -/
def absorb (s : State) (o : Outcome) : State :=
  { s.push o.pkgs with
    pending := s.pending ++ o.pending
    choices := s.choices ++ o.choices
    problems := s.problems ++ o.problems }

end State

/-- The state at the head of the outer loop: the roots stacked, then the `extra` entries
    read against the empty set. -/
def start (L : Lookup) (roots : List String) (extra : List (String × String)) : State :=
  extra.foldl (fun s entry => s.absorb (demandExtra L s.seen entry.1 entry.2))
    ⟨∅, roots.reverse, [], [], [], false⟩

/-- The body of the inner loop, for a package just popped. -/
def visit (L : Lookup) (requires : Dict String (List String)) (pkg : String) (s : State) :
    State :=
  if pkg ∈ s.seen then s
  else
    (requires.getD pkg []).foldl (fun s cap => s.absorb (demand L s.seen pkg cap))
      { s with seen := insert pkg s.seen }

mutual

/-- The number of nodes of a tree. -/
def Node.size : Node → Nat
  | .cap _ => 1
  | .and children | .or children | .with children => Node.sizeEach children + 1
  | .without left right => left.size + right.size + 1
  | .if then_ cond none | .unless then_ cond none => then_.size + cond.size + 1
  | .if then_ cond (some other) | .unless then_ cond (some other) =>
    then_.size + cond.size + other.size + 1

def Node.sizeEach : List Node → Nat
  | [] => 0
  | child :: children => child.size + Node.sizeEach children

end

/-- The scan of the pending list. `require` appends to the list being scanned, so what it
    appends is scanned too; `todo` is what is left to scan and `still` what stays pending.
    The fuel counts nodes: an expression is replaced by proper parts of itself. -/
def scanPending (L : Lookup) (final : Bool) :
    Nat → List (Node × String) → List (Node × String) → State → State
  | 0, todo, still, s => { s with pending := still ++ todo }
  | _ + 1, [], still, s => { s with pending := still }
  | fuel + 1, (node, who) :: todo, still, s =>
    let o := require L s.seen who final node
    let s' : State :=
      { s.push o.pkgs with
        choices := s.choices ++ o.choices, problems := s.problems ++ o.problems }
    match o.got with
    | none => scanPending L final fuel (todo ++ o.pending) (still ++ [(node, who)]) s'
    | some _ => scanPending L final fuel (todo ++ o.pending) still s'

/-- One pass over the pending expressions. -/
def settlePending (L : Lookup) (final : Bool) (s : State) : State :=
  scanPending L final (Node.sizeEach (s.pending.map Prod.fst) + 1) s.pending [] s

/-- Is some alternative of a choice in the set? -/
def Choice.settledBy (L : Lookup) (seen : Finset String) (c : Choice) : Bool :=
  c.alternatives.any (capabilityPresent L seen)

/-- One pass over the choices. -/
def settleChoices (L : Lookup) (s : State) : State :=
  let open_ := s.choices.filter fun c => !c.settledBy L s.seen
  { s.push (open_.filterMap fun c => L.overrides.get? c.expression) with
    choices := open_.filter fun c => (L.overrides.get? c.expression).isNone }

/-- The part of the outer loop after the frontier is drained. -/
def settle (L : Lookup) (s : State) : State :=
  let s := settleChoices L (settlePending L false s)
  let s := if s.frontier.isEmpty then settlePending L true s else s
  { s with done := s.frontier.isEmpty }

/-- One trip of the machine. -/
def step (L : Lookup) (requires : Dict String (List String)) (s : State) : State :=
  if s.done then s
  else
    match s.frontier with
    | pkg :: rest => visit L requires pkg { s with frontier := rest }
    | [] => settle L s

/-- `n` trips. -/
def run (L : Lookup) (requires : Dict String (List String)) (n : Nat) (s : State) : State :=
  (step L requires)^[n] s

/-! ## What the function returns -/

/-- `", ".join(texts) or "none"` -/
def joinOrNone (texts : List String) : String :=
  let shown := PyText.join ", " texts
  if shown = "" then "none" else shown

/-- The problem that reports an unsettled expression, for the choices that carry it. The
    alternatives shown are those of the first of them. -/
def choiceProblem (choices : List Choice) (expression : String) : Problem :=
  let group := choices.filter fun c => c.expression = expression
  let alternatives := (group.head?.map Choice.alternatives).getD []
  let wanted := PyText.sortedSet (group.map Choice.who)
  ⟨"choice",
    expression ++ " -- none of its candidates is in the buildroot; candidates are " ++
      joinOrNone alternatives ++ ". Required by " ++ PyText.join ", " (wanted.take 3) ++
      (if wanted.length > 3 then " and " ++ toString (wanted.length - 3) ++ " more" else "") ++
      ". Settle it with --override '" ++ expression ++ "=<package>'",
    wanted.headD ""⟩

/-- The choices still open at the end, one problem for each expression. -/
def reportChoices (choices : List Choice) : List Problem :=
  (PyText.sortedSet (choices.map Choice.expression)).map (choiceProblem choices)

/-- `return seen, problems` -/
def State.result (s : State) : Finset String × List Problem :=
  (s.seen, s.problems ++ reportChoices s.choices)

end BuckosDistro.Depgraph
