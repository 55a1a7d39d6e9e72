/-
  The loops of `runtime_closure`, one iteration at a time (`tools/depgraph.py`).

  A trip of the machine in `Closure` runs whole inner loops: over the Requires of a package,
  over a pending list that grows while it is scanned, over the choices. Here every iteration
  of every loop is a tick, and nothing counts fuel. A trip is finitely many ticks
  (`reaches_step`), so the ticks come to the end of the function as the trips do.
-/
import BuckosDistro.Depgraph.Run

namespace BuckosDistro.Depgraph

open BuckosDistro.Lib

/-! ## The machine -/

/-- Where the function stands: at the head of the frontier loop, in a loop over Requires, in
    a scan of the pending list, in the loop over the choices, or past the outer loop. -/
inductive Place
  | frontier
  | requires (pkg : String) (caps : List String)
  | pending (final : Bool) (todo still : List (Node × String))
  | choices (todo still : List Choice)
  | stop

structure Config where
  place : Place
  state : State

/-- One iteration. -/
def tick (L : Lookup) (requires : Dict String (List String)) : Config → Config
  | ⟨.stop, s⟩ => ⟨.stop, s⟩
  | ⟨.frontier, s⟩ =>
    match s.frontier with
    | [] => ⟨.pending false s.pending [], s⟩
    | pkg :: rest =>
      if pkg ∈ s.seen then ⟨.frontier, { s with frontier := rest }⟩
      else
        ⟨.requires pkg (requires.getD pkg []),
          { s with frontier := rest, seen := insert pkg s.seen }⟩
  | ⟨.requires _ [], s⟩ => ⟨.frontier, s⟩
  | ⟨.requires pkg (cap :: caps), s⟩ =>
    ⟨.requires pkg caps, s.absorb (demand L s.seen pkg cap)⟩
  | ⟨.pending final ((node, who) :: todo) still, s⟩ =>
    let o := require L s.seen who final node
    -- What `require` appends to the list is scanned too.
    ⟨.pending final (todo ++ o.pending) (if o.got.isNone then still ++ [(node, who)] else still),
      { s.push o.pkgs with
        choices := s.choices ++ o.choices, problems := s.problems ++ o.problems }⟩
  | ⟨.pending false [] still, s⟩ => ⟨.choices s.choices [], { s with pending := still }⟩
  | ⟨.pending true [] still, s⟩ =>
    if s.frontier.isEmpty then ⟨.stop, { s with pending := still, done := true }⟩
    else ⟨.frontier, { s with pending := still }⟩
  | ⟨.choices (c :: todo) still, s⟩ =>
    if c.settledBy L s.seen then ⟨.choices todo still, s⟩
    else
      match L.overrides.get? c.expression with
      | some chosen => ⟨.choices todo still, s.push [chosen]⟩
      | none => ⟨.choices todo (still ++ [c]), s⟩
  | ⟨.choices [] still, s⟩ =>
    if s.frontier.isEmpty then ⟨.pending true s.pending [], { s with choices := still }⟩
    else ⟨.frontier, { s with choices := still }⟩

section Ticks

variable {L : Lookup} {requires : Dict String (List String)}

/-- Some number of ticks leads from one place to another. -/
def Reaches (L : Lookup) (requires : Dict String (List String)) (c c' : Config) : Prop :=
  ∃ n, (tick L requires)^[n] c = c'

theorem Reaches.refl (c : Config) : Reaches L requires c c := ⟨0, rfl⟩

theorem Reaches.trans {a b c : Config} (h : Reaches L requires a b) (h' : Reaches L requires b c) :
    Reaches L requires a c := by
  obtain ⟨n, rfl⟩ := h
  obtain ⟨m, rfl⟩ := h'
  exact ⟨m + n, Function.iterate_add_apply _ m n a⟩

/-- A tick first. -/
theorem Reaches.head {a b : Config} (h : Reaches L requires (tick L requires a) b) :
    Reaches L requires a b := by
  obtain ⟨n, hn⟩ := h
  exact ⟨n + 1, hn⟩

/-! ## The inner loops -/

/-- The loop over the Requires of a package. -/
theorem reaches_requires (pkg : String) (caps : List String) (s : State) :
    Reaches L requires ⟨.requires pkg caps, s⟩
      ⟨.frontier, caps.foldl (fun s cap => s.absorb (demand L s.seen pkg cap)) s⟩ := by
  induction caps generalizing s with
  | nil => exact .head (.refl _)
  | cons cap caps ih => exact .head (ih _)

/-- The scan of a pending list ends: what is appended is smaller than what it replaces. -/
theorem reaches_scan (final : Bool) (fuel : ℕ) (todo still : List (Node × String)) (s : State)
    (h : pendingSize todo < fuel) :
    ∃ s' still', Reaches L requires ⟨.pending final todo still, s⟩ ⟨.pending final [] still', s'⟩ ∧
      scanPending L final fuel todo still s = { s' with pending := still' } := by
  induction fuel generalizing todo still s with
  | zero => omega
  | succ fuel ih =>
    rcases todo with _ | ⟨⟨node, who⟩, todo⟩
    · exact ⟨s, still, .refl _, rfl⟩
    · have hlt := pendingSize_require_lt L s.seen who final node
      have hcons : pendingSize ((node, who) :: todo) = node.size + pendingSize todo := rfl
      have hsize : pendingSize (todo ++ (require L s.seen who final node).pending) < fuel := by
        rw [pendingSize_append]
        omega
      obtain ⟨s', still', hreach, hscan⟩ := ih _ (if (require L s.seen who final node).got.isNone
        then still ++ [(node, who)] else still)
        { s.push (require L s.seen who final node).pkgs with
          choices := s.choices ++ (require L s.seen who final node).choices
          problems := s.problems ++ (require L s.seen who final node).problems } hsize
      refine ⟨s', still', .head hreach, ?_⟩
      rw [← hscan]
      simp only [scanPending]
      cases (require L s.seen who final node).got <;> rfl

theorem reaches_settlePending (final : Bool) (s : State) :
    ∃ s' still', Reaches L requires ⟨.pending final s.pending [], s⟩
        ⟨.pending final [] still', s'⟩ ∧
      settlePending L final s = { s' with pending := still' } :=
  reaches_scan final _ s.pending [] s (Nat.lt_succ_self _)

/-- The loop over the choices. -/
theorem reaches_choices (todo still : List Choice) (s : State) :
    Reaches L requires ⟨.choices todo still, s⟩
      ⟨.choices [] (still ++ (todo.filter fun c => !c.settledBy L s.seen).filter fun c =>
          (L.overrides.get? c.expression).isNone),
        s.push ((todo.filter fun c => !c.settledBy L s.seen).filterMap fun c =>
          L.overrides.get? c.expression)⟩ := by
  induction todo generalizing still s with
  | nil =>
    rw [List.filter_nil, List.filter_nil, List.append_nil]
    exact .refl _
  | cons c todo ih =>
    refine .head ?_
    cases hs : c.settledBy L s.seen with
    | true =>
      have htick : tick L requires ⟨.choices (c :: todo) still, s⟩ = ⟨.choices todo still, s⟩ := by
        unfold tick
        dsimp only
        rw [if_pos hs]
      rw [htick, List.filter_cons_of_neg (by simp [hs])]
      exact ih still s
    | false =>
      rw [List.filter_cons_of_pos (by simp [hs])]
      cases ho : L.overrides.get? c.expression with
      | some chosen =>
        have htick : tick L requires ⟨.choices (c :: todo) still, s⟩ =
            ⟨.choices todo still, s.push [chosen]⟩ := by
          unfold tick
          dsimp only
          rw [if_neg (by rw [hs]; exact Bool.false_ne_true), ho]
        have hpush : ∀ pkgs, (s.push [chosen]).push pkgs = s.push (chosen :: pkgs) := by
          intro pkgs
          unfold State.push
          by_cases hc : chosen ∈ s.seen <;> simp [hc]
        rw [htick, List.filter_cons_of_neg (by simp [ho]), List.filterMap_cons, ho]
        have hrun := ih still (s.push [chosen])
        rw [State.push_seen, hpush] at hrun
        exact hrun
      | none =>
        have htick : tick L requires ⟨.choices (c :: todo) still, s⟩ =
            ⟨.choices todo (still ++ [c]), s⟩ := by
          unfold tick
          dsimp only
          rw [if_neg (by rw [hs]; exact Bool.false_ne_true), ho]
        rw [htick, List.filter_cons_of_pos (by simp [ho]), List.filterMap_cons, ho]
        have hrun := ih (still ++ [c]) s
        rw [List.append_assoc, List.singleton_append] at hrun
        exact hrun

/-! ## One trip -/

/-- The place after a trip. -/
def place (s : State) : Place := if s.done then .stop else .frontier

theorem reaches_visit {pkg : String} {rest : List String} {s : State}
    (hf : s.frontier = pkg :: rest) :
    Reaches L requires ⟨.frontier, s⟩
      ⟨.frontier, visit L requires pkg { s with frontier := rest }⟩ := by
  refine .head ?_
  unfold tick visit
  dsimp only
  rw [hf]
  dsimp only
  split_ifs with hp
  · exact .refl _
  · exact reaches_requires pkg _ _

/-- The passes over what is pending and over the choices. -/
theorem reaches_settle {s : State} (hf : s.frontier = []) (hd : s.done = false) :
    Reaches L requires ⟨.frontier, s⟩ ⟨place (settle L s), settle L s⟩ := by
  -- The first scan, then the choices.
  have hfirst : tick L requires ⟨.frontier, s⟩ = ⟨.pending false s.pending [], s⟩ := by
    unfold tick
    dsimp only
    rw [hf]
  refine .head ?_
  rw [hfirst]
  obtain ⟨s₁, still₁, hscan, hpending⟩ := @reaches_settlePending L requires false s
  refine hscan.trans (.head ?_)
  have hchoices : tick L requires ⟨.pending false [] still₁, s₁⟩ =
      ⟨.choices (settlePending L false s).choices [], settlePending L false s⟩ := by
    rw [hpending]
    rfl
  rw [hchoices]
  refine (reaches_choices _ [] _).trans (.head ?_)
  rw [List.nil_append]
  generalize hmid : midSettle L s = mid
  have hdone : mid.done = false := by
    rw [← hmid, ← hd]
    exact (rescans_settlePending L false s).done
  -- The frontier decides whether a final scan follows.
  have hsettle : settle L s =
      let last := if mid.frontier.isEmpty then settlePending L true mid else mid
      { last with done := last.frontier.isEmpty } := by
    rw [← hmid]
    rfl
  have hplace : tick L requires ⟨.choices [] (((settlePending L false s).choices.filter fun c =>
        !c.settledBy L (settlePending L false s).seen).filter fun c =>
          (L.overrides.get? c.expression).isNone),
      (settlePending L false s).push (((settlePending L false s).choices.filter fun c =>
        !c.settledBy L (settlePending L false s).seen).filterMap fun c =>
          L.overrides.get? c.expression)⟩ =
      if mid.frontier.isEmpty then ⟨.pending true mid.pending [], mid⟩ else ⟨.frontier, mid⟩ := by
    rw [← hmid]
    rfl
  rw [hplace]
  by_cases hempty : mid.frontier.isEmpty = true
  · rw [if_pos hempty]
    obtain ⟨s₂, still₂, hfinal, hlast⟩ := @reaches_settlePending L requires true mid
    refine hfinal.trans (.head ?_)
    have hdone₂ : s₂.done = false := by
      have hkept := (rescans_settlePending L true mid).done
      rw [hlast, hdone] at hkept
      exact hkept
    dsimp only at hsettle
    rw [if_pos hempty, hlast] at hsettle
    rw [hsettle]
    unfold tick place
    by_cases hend : s₂.frontier.isEmpty = true
    · simp only [hend, if_true]
      exact .refl _
    · rw [Bool.not_eq_true] at hend
      simp only [hend, hdone₂, Bool.false_eq_true, if_false]
      exact .refl _
  · dsimp only at hsettle
    rw [if_neg hempty] at hsettle
    rw [if_neg hempty, hsettle]
    rw [Bool.not_eq_true] at hempty
    have hsame : { mid with done := mid.frontier.isEmpty } = mid := by
      rw [hempty, ← hdone]
    have hhere : place mid = .frontier := by
      unfold place
      rw [hdone]
      rfl
    rw [hsame, hhere]
    exact .refl _

/-- A trip is finitely many ticks. -/
theorem reaches_step {s : State} (hd : s.done = false) :
    Reaches L requires ⟨.frontier, s⟩ ⟨place (step L requires s), step L requires s⟩ := by
  cases hf : s.frontier with
  | nil =>
    have hstep : step L requires s = settle L s := by
      unfold step
      rw [hd, hf]
      rfl
    rw [hstep]
    exact reaches_settle hf hd
  | cons pkg rest =>
    have hstep : step L requires s = visit L requires pkg { s with frontier := rest } := by
      unfold step
      rw [hd, hf]
      rfl
    have hdone : (step L requires s).done = false := by
      rcases step_cases L requires hd with ⟨_, _, _, _, he⟩ | ⟨_, hv⟩ | hs
      · rw [he]
        exact hd
      · exact hv.done
      · rw [hs.drained] at hf
        cases hf
    have hplace : place (step L requires s) = .frontier := by
      unfold place
      rw [hdone]
      rfl
    rw [hplace, hstep]
    exact reaches_visit hf

/-- The ticks follow a run to its end. -/
theorem reaches_run {s : State} (hd : s.done = false) (n : ℕ) :
    Reaches L requires ⟨.frontier, s⟩ ⟨place (run L requires n s), run L requires n s⟩ := by
  induction n with
  | zero =>
    have hplace : place s = .frontier := by
      unfold place
      rw [hd]
      rfl
    show Reaches L requires ⟨.frontier, s⟩ ⟨place s, s⟩
    rw [hplace]
    exact .refl _
  | succ n ih =>
    have hsucc : run L requires (n + 1) s = step L requires (run L requires n s) :=
      Function.iterate_succ_apply' _ _ _
    rw [hsucc]
    cases hn : (run L requires n s).done with
    | true =>
      rw [step_done hn]
      exact ih
    | false =>
      have hplace : place (run L requires n s) = .frontier := by
        unfold place
        rw [hn]
        rfl
      rw [hplace] at ih
      exact ih.trans (reaches_step hn)

end Ticks

/-- **The loops of `runtime_closure` come to their end**, whatever the universe, the roots,
    the extra requirements and the overrides, and end where the function returns. -/
theorem loops_end (L : Lookup) (requires : Dict String (List String)) (roots : List String)
    (extra : List (String × String)) :
    ∃ n, (tick L requires)^[n] ⟨.frontier, start L roots extra⟩ =
      ⟨.stop, finalState L requires roots extra⟩ := by
  have hstart : (start L roots extra).done = false := (absorbs_start L roots extra).done
  obtain ⟨n, hn⟩ := run_terminates L requires roots extra
  have hend := @reaches_run L requires (start L roots extra) hstart n
  have hplace : place (run L requires n (start L roots extra)) = .stop := by
    unfold place
    rw [hn]
    rfl
  rw [hplace, ← finalState_eq n hn] at hend
  exact hend

end BuckosDistro.Depgraph
