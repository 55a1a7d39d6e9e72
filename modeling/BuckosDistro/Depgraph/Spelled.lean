/-
  A capability and its bound as one text, read back.

  `split_constraint` cuts at the first operator of its own list that stands between two
  blanks, wherever in the text it stands, and `_evr_parts` at the first colon and the first
  hyphen. A text that was put together from a name, an operator and a version reads back as
  these exactly when none of the three holds what the readers cut at.
-/
import BuckosDistro.Depgraph.Bounds

namespace BuckosDistro.Depgraph

open BuckosDistro.Lib

/-! ## Operators between blanks -/

namespace Op

/-- The operators the source tries before this one. -/
def earlier (op : Op) : List Op := all.takeWhile (· ≠ op)

theorem token_eq (op : Op) : op.token = PyText.between op.text.toList := by
  cases op <;> decide

theorem blank_notMem (op : Op) : ' ' ∉ op.text.toList := by
  cases op <;> decide

theorem text_inj {op op' : Op} (h : op.text.toList = op'.text.toList) : op = op' := by
  revert h
  cases op <;> cases op' <;> decide

theorem notMem_earlier (op : Op) : op ∉ op.earlier := by
  cases op <;> decide

theorem all_eq (op : Op) : ∃ later, all = op.earlier ++ op :: later := by
  cases op
  · exact ⟨[.le, .eq, .gt, .lt], rfl⟩
  · exact ⟨[.eq, .gt, .lt], rfl⟩
  · exact ⟨[.gt, .lt], rfl⟩
  · exact ⟨[.lt], rfl⟩
  · exact ⟨[], rfl⟩

theorem earlier_eq {op : Op} {before after : List Op} (h : all = before ++ op :: after) :
    before = op.earlier := by
  have hnodup : all.Nodup := by decide
  rw [h] at hnodup
  have hbefore : ∀ o ∈ before, decide (o ≠ op) = true := fun o ho =>
    decide_eq_true fun he => (List.nodup_append.mp hnodup).2.2 o ho o (he ▸ List.mem_cons_self) rfl
  unfold earlier
  rw [h, List.takeWhile_append_of_pos hbefore, List.takeWhile_cons_of_neg (by simp),
    List.append_nil]

end Op

theorem cutAtOp_iff {text head tail : List Char} {op : Op} {ops : List Op} :
    cutAtOp text ops = some (head, op, tail) ↔
      ∃ before after idx, ops = before ++ op :: after ∧
        (∀ o ∈ before, ¬ o.token <:+: text) ∧ PyText.find? op.token text = some idx ∧
        head = text.take idx ∧ tail = text.drop (idx + op.token.length) := by
  induction ops with
  | nil =>
    refine iff_of_false (fun h => nomatch h) ?_
    rintro ⟨before, after, _, h, -⟩
    exact List.append_ne_nil_of_right_ne_nil before (List.cons_ne_nil op after) h.symm
  | cons o ops ih =>
    unfold cutAtOp
    cases hfind : PyText.find? o.token text with
    | none =>
      have hnone := PyText.find?_eq_none.mp hfind
      refine ih.trans ⟨?_, ?_⟩
      · rintro ⟨before, after, idx, rfl, hbefore, hrest⟩
        exact ⟨o :: before, after, idx, rfl, List.forall_mem_cons.mpr ⟨hnone, hbefore⟩, hrest⟩
      · rintro ⟨before, after, idx, hops, hbefore, hidx, hrest⟩
        cases before with
        | nil =>
          obtain ⟨rfl, rfl⟩ := List.cons.inj hops
          rw [hfind] at hidx
          cases hidx
        | cons b before =>
          obtain ⟨rfl, rfl⟩ := List.cons.inj hops
          exact ⟨before, after, idx, rfl, (List.forall_mem_cons.mp hbefore).2, hidx, hrest⟩
    | some i =>
      constructor
      · intro h
        cases h
        exact ⟨[], ops, i, rfl, fun _ h => (nomatch h), hfind, rfl, rfl⟩
      · rintro ⟨before, after, idx, hops, hbefore, hidx, hhead, htail⟩
        cases before with
        | nil =>
          obtain ⟨rfl, rfl⟩ := List.cons.inj hops
          rw [hfind] at hidx
          obtain rfl := Option.some.inj hidx
          rw [hhead, htail]
        | cons b before =>
          obtain ⟨rfl, rfl⟩ := List.cons.inj hops
          have hnone := PyText.find?_eq_none.mpr (hbefore o List.mem_cons_self)
          rw [hfind] at hnone
          cases hnone

/-! ## Names -/

/-- A name that stands for itself: nothing to trim, and no operator between blanks unless it
    is a rich dependency, which is not cut. -/
structure PlainName (cap : String) : Prop where
  trimmed : PyText.strip cap.toList = cap.toList
  uncut : isRichDep cap = true ∨ ∀ op : Op, ¬ op.token <:+: cap.toList

theorem cutAtOp_eq_none {text : List Char} {ops : List Op} :
    cutAtOp text ops = none ↔ ∀ op ∈ ops, ¬ op.token <:+: text := by
  induction ops with
  | nil => exact iff_of_true rfl fun _ h => nomatch h
  | cons o ops ih =>
    unfold cutAtOp
    rw [List.forall_mem_cons, ← PyText.find?_eq_none]
    cases hfind : PyText.find? o.token text with
    | none => exact ih.trans (and_iff_right rfl).symm
    | some i => exact iff_of_false (fun h => nomatch h) fun h => absurd h.1 (Option.some_ne_none i)

theorem stripText_eq_iff {cap name : String} :
    stripText cap = name ↔ PyText.strip cap.toList = name.toList := by
  unfold stripText
  rw [← String.toList_inj, String.toList_ofList]

/-- A name without a bound reads back as itself. -/
theorem unversioned_iff (cap : String) : Unversioned cap ↔ PlainName cap := by
  have hmem : ∀ op : Op, op ∈ Op.all := fun op => by cases op <;> decide
  unfold Unversioned splitConstraint
  by_cases hrich : isRichDep cap = true
  · rw [if_pos hrich, Prod.mk.injEq, and_iff_left rfl, stripText_eq_iff]
    exact ⟨fun h => ⟨h, Or.inl hrich⟩, fun h => h.trimmed⟩
  · rw [if_neg hrich]
    cases hcut : cutAtOp cap.toList Op.all with
    | none =>
      have hnone := cutAtOp_eq_none.mp hcut
      show (stripText cap, none) = (cap, none) ↔ PlainName cap
      rw [Prod.mk.injEq, and_iff_left rfl, stripText_eq_iff]
      exact ⟨fun h => ⟨h, Or.inr fun op => hnone op (hmem op)⟩, fun h => h.trimmed⟩
    | some cut =>
      obtain ⟨name, op, wanted⟩ := cut
      refine iff_of_false (fun h => Option.some_ne_none _ (Prod.mk.inj h).2) fun h => ?_
      have hnone : cutAtOp cap.toList Op.all = none :=
        cutAtOp_eq_none.mpr fun o _ => h.uncut.resolve_left hrich o
      rw [hcut] at hnone
      cases hnone

/-! ## Names with a bound -/

/-- A capability and its bound as one text. -/
def spelled (cap : String) (op : Op) (wanted : String) : String :=
  cap ++ " " ++ op.text ++ " " ++ wanted

theorem toList_spelled (cap : String) (op : Op) (wanted : String) :
    (spelled cap op wanted).toList = cap.toList ++ (op.token ++ wanted.toList) := by
  unfold spelled
  rw [Op.token_eq]
  simp [PyText.between]

/-- What `split_constraint` cuts at stands nowhere but between the name and the version. -/
structure Apart (cap : String) (op : Op) (wanted : String) : Prop where
  trimmed : PyText.strip cap.toList = cap.toList
  plain : isRichDep cap = false
  name : ∀ o ∈ op :: op.earlier, ¬ o.token <:+: cap.toList ++ [' ']
  version : ∀ o ∈ op.earlier, ¬ o.token <:+: ' ' :: wanted.toList

theorem isRichDep_spelled {cap : String} (h : PyText.strip cap.toList = cap.toList) (op : Op)
    (wanted : String) : isRichDep (spelled cap op wanted) = isRichDep cap := by
  have hhead := (PyText.strip_ends cap.toList).1
  rw [h] at hhead
  unfold isRichDep
  rw [toList_spelled]
  cases hcap : cap.toList with
  | nil => cases op <;> rfl
  | cons c cs =>
    rw [hcap] at hhead
    have hc : ¬ PyText.isSpace c = true := by
      rw [hhead c rfl]
      exact Bool.false_ne_true
    unfold PyText.lstrip
    rw [List.cons_append, List.dropWhile_cons_of_neg hc, List.dropWhile_cons_of_neg hc]
    rfl

/-- Another operator stands in the text only within the name or within the version. -/
theorem token_infix_iff {o op : Op} (h : o ≠ op) (name wanted : List Char) :
    o.token <:+: name ++ (op.token ++ wanted) ↔
      o.token <:+: name ++ [' '] ∨ o.token <:+: ' ' :: wanted := by
  have htoken : op.token ++ wanted = ' ' :: (op.text.toList ++ ' ' :: wanted) := by
    rw [Op.token_eq]
    show ' ' :: ((op.text.toList ++ [' ']) ++ wanted) = _
    rw [List.append_assoc]
    rfl
  rw [Op.token_eq o, htoken, PyText.between_infix_iff o.blank_notMem]
  refine or_congr_right ?_
  have hfirst : ¬ PyText.between o.text.toList <+: ' ' :: (op.text.toList ++ ' ' :: wanted) := by
    intro hp
    rw [← htoken, Op.token_eq] at hp
    exact h (Op.text_inj (PyText.eq_of_between_prefix o.blank_notMem op.blank_notMem hp))
  rw [List.infix_cons_iff, or_iff_right hfirst, PyText.between_infix_iff o.blank_notMem,
    or_iff_right (PyText.not_between_within _ op.blank_notMem)]

/-- The cut falls at the operator that was written. -/
theorem cutAtOp_spelled {name wanted : List Char} {op : Op}
    (hearlier : ∀ o ∈ op.earlier, ¬ o.token <:+: name ++ (op.token ++ wanted))
    (hname : ¬ op.token <:+: name ++ [' ']) :
    cutAtOp (name ++ (op.token ++ wanted)) Op.all = some (name, op, wanted) := by
  obtain ⟨later, hlater⟩ := op.all_eq
  obtain ⟨idx, hidx, hfind⟩ :=
    PyText.find?_append_le name (List.prefix_append op.token wanted)
  have hlen : idx = name.length := by
    by_contra hne
    refine hname ?_
    have hlt : idx < name.length := Nat.lt_of_le_of_ne hidx hne
    have hp := PyText.prefix_of_find? hfind
    rw [List.drop_append_of_le_length hidx] at hp
    have hdrop : (name.drop idx) ++ [' '] <:+: name ++ [' '] := by
      rw [← List.drop_append_of_le_length hidx]
      exact (List.drop_suffix idx (name ++ [' '])).isInfix
    refine List.IsInfix.trans (List.IsPrefix.isInfix ?_) hdrop
    cases hrest : name.drop idx with
    | nil => exact absurd (List.drop_eq_nil_iff.mp hrest) (Nat.not_le.mpr hlt)
    | cons c cs =>
      rw [hrest, Op.token_eq] at hp
      obtain ⟨hc, htail⟩ := List.cons_prefix_cons.mp hp
      rw [Op.token_eq]
      refine List.cons_prefix_cons.mpr ⟨hc, ?_⟩
      have hlong : op.text.toList ++ [' '] <+: cs ++ ' ' :: (op.text.toList ++ ' ' :: wanted) := by
        simpa [PyText.between] using htail
      exact PyText.prefix_of_blank op.blank_notMem hlong
  subst hlen
  refine cutAtOp_iff.mpr ⟨op.earlier, later, name.length, hlater, hearlier, hfind, ?_, ?_⟩
  · exact (List.take_left).symm
  · rw [← List.drop_drop, List.drop_left, List.drop_left]

/-- An operator within the name is found before the one that was written. -/
theorem find?_lt_of_within {name wanted : List Char} {op : Op} (h : op.token <:+: name ++ [' ']) :
    ∃ i < name.length, PyText.find? op.token (name ++ (op.token ++ wanted)) = some i := by
  obtain ⟨left, right, hsplit⟩ := h
  have hlen := congrArg List.length hsplit
  have htwo : op.token.length = op.text.toList.length + 2 := by
    rw [Op.token_eq]
    simp [PyText.between]
  rw [List.length_append, List.length_append, List.length_append, List.length_singleton,
    htwo] at hlen
  have htext : name ++ (op.token ++ wanted) =
      left ++ (op.token ++ (right ++ (op.text.toList ++ ' ' :: wanted))) := by
    have hopen : op.token ++ wanted = [' '] ++ (op.text.toList ++ ' ' :: wanted) := by
      rw [Op.token_eq]
      simp [PyText.between]
    rw [hopen, ← List.append_assoc, ← hsplit, List.append_assoc, List.append_assoc]
  obtain ⟨i, hi, hfind⟩ := PyText.find?_append_le left
    (List.prefix_append op.token (right ++ (op.text.toList ++ ' ' :: wanted)))
  refine ⟨i, by omega, ?_⟩
  rw [htext]
  exact hfind

/-- What a cut that gives the name back says of the text. -/
theorem apart_of_cut {name wanted head tail : List Char} {op : Op}
    (hcut : cutAtOp (name ++ (op.token ++ wanted)) Op.all = some (head, op, tail))
    (hhead : PyText.strip head = name) :
    head = name ∧ tail = wanted ∧
      (∀ o ∈ op.earlier, ¬ o.token <:+: name ++ (op.token ++ wanted)) ∧
      ¬ op.token <:+: name ++ [' '] := by
  obtain ⟨before, after, idx, hall, hbefore, hfind, htake, hdrop⟩ := cutAtOp_iff.mp hcut
  obtain ⟨i, hi, hfirst⟩ := PyText.find?_append_le name (List.prefix_append op.token wanted)
  obtain rfl : idx = i := Option.some.inj (hfind.symm.trans hfirst)
  have hlen : name.length ≤ idx := by
    have hshort := (PyText.strip_sublist head).length_le
    rw [hhead, htake, List.length_take] at hshort
    omega
  obtain rfl : idx = name.length := Nat.le_antisymm hi hlen
  refine ⟨htake.trans List.take_left, ?_, Op.earlier_eq hall ▸ hbefore, fun hin => ?_⟩
  · rw [hdrop, ← List.drop_drop, List.drop_left, List.drop_left]
  · obtain ⟨j, hj, hless⟩ := @find?_lt_of_within name wanted op hin
    rw [hfind] at hless
    exact absurd hj (Nat.not_lt.mpr (Option.some.inj hless).le)

/-- **A bound reads back** exactly when its text is cut nowhere else. -/
theorem splitConstraint_spelled_iff {cap wanted read : String} {op : Op} :
    splitConstraint (spelled cap op wanted) = (cap, some (op, read)) ↔
      Apart cap op wanted ∧ stripText wanted = read := by
  have hne : ∀ o ∈ op.earlier, o ≠ op := fun o ho he =>
    op.notMem_earlier (he ▸ ho)
  constructor
  · intro h
    unfold splitConstraint at h
    by_cases hrich : isRichDep (spelled cap op wanted) = true
    · rw [if_pos hrich] at h
      exact absurd (Prod.mk.inj h).2.symm (Option.some_ne_none _)
    · rw [if_neg hrich] at h
      cases hcut : cutAtOp (spelled cap op wanted).toList Op.all with
      | none =>
        rw [hcut] at h
        exact absurd (Prod.mk.inj h).2.symm (Option.some_ne_none _)
      | some cut =>
        obtain ⟨head, o, tail⟩ := cut
        rw [hcut] at h
        obtain ⟨hname, hbound⟩ := Prod.mk.inj h
        obtain ⟨rfl, hread⟩ := Prod.mk.inj (Option.some.inj hbound)
        have hstrip : PyText.strip head = cap.toList := by
          rw [← hname, String.toList_ofList]
        rw [toList_spelled] at hcut
        obtain ⟨rfl, rfl, hearlier, hown⟩ := apart_of_cut hcut hstrip
        refine ⟨⟨hstrip, ?_, ?_, fun p hp => ?_⟩, hread⟩
        · rw [← isRichDep_spelled hstrip o wanted]
          exact Bool.not_eq_true _ ▸ hrich
        · refine List.forall_mem_cons.mpr ⟨hown, fun p hp => ?_⟩
          exact (not_or.mp ((token_infix_iff (hne p hp) _ _).not.mp (hearlier p hp))).1
        · exact (not_or.mp ((token_infix_iff (hne p hp) _ _).not.mp (hearlier p hp))).2
  · rintro ⟨hapart, rfl⟩
    have hcut := @cutAtOp_spelled cap.toList wanted.toList op
      (fun o ho => (token_infix_iff (hne o ho) _ _).not.mpr (not_or.mpr
        ⟨hapart.name o (List.mem_cons_of_mem op ho), hapart.version o ho⟩))
      (hapart.name op List.mem_cons_self)
    unfold splitConstraint
    rw [isRichDep_spelled hapart.trimmed, hapart.plain, if_neg Bool.false_ne_true, toList_spelled,
      hcut]
    show (String.ofList (PyText.strip cap.toList), _) = _
    rw [hapart.trimmed, String.ofList_toList]
    rfl

end BuckosDistro.Depgraph
