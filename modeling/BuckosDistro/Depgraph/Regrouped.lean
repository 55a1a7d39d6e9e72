/-
  Redundant parentheses in boolean dependencies (`tools/depgraph.py`, `_parse_body`).

  Parentheses around an operand are taken off once. What is inside is read on only where an
  operator stands outside all parentheses of it; a second pair hides every operator, and the
  operand becomes a leaf with parentheses of its own.
-/
import BuckosDistro.Depgraph.Printed

namespace BuckosDistro.Depgraph

open BuckosDistro.Lib BuckosDistro.Lib.Parens

/-! ## Operands of a text -/

/-- The spans a body is cut into, from `start` on. -/
def spansFrom (text : List Char) : ℕ → List (ℕ × BoolOp) → List (ℕ × ℕ)
  | start, [] => [(start, text.length)]
  | start, (index, op) :: ops => (start, index) :: spansFrom text (index + op.token.length) ops

/-- The parser reads `operand` in `before ++ operand ++ after`. -/
inductive OperandIn : List Char → List Char → List Char → Prop where
  /-- It stands between two neighbouring operators outside the parentheses, or an end. -/
  | between {before operand after : List Char}
      (hgroup : isSingleGroup (before ++ (operand ++ after)) = false)
      (hops : topLevelOps (before ++ (operand ++ after)) ≠ [])
      (hspan : (before.length, before.length + operand.length) ∈
        spansFrom (before ++ (operand ++ after)) 0 (topLevelOps (before ++ (operand ++ after)))) :
      OperandIn before operand after
  /-- The parser strips the text. -/
  | trimmed {before operand after blank blank' : List Char}
      (hblank : ∀ c ∈ blank, PyText.isSpace c = true)
      (hblank' : ∀ c ∈ blank', PyText.isSpace c = true)
      (htrim : PyText.strip (before ++ (operand ++ after)) = before ++ (operand ++ after))
      (h : OperandIn before operand after) :
      OperandIn (blank ++ before) operand (after ++ blank')
  /-- The parser takes off parentheses. -/
  | group {before operand after : List Char}
      (hbalanced : Balanced (before ++ (operand ++ after))) (h : OperandIn before operand after) :
      OperandIn ('(' :: before) operand (after ++ [')'])
  /-- An operand of an operand. -/
  | within {before operand after before' operand' after' : List Char}
      (h : OperandIn before operand after) (hsplit : operand = before' ++ (operand' ++ after'))
      (h' : OperandIn before' operand' after') :
      OperandIn (before ++ before') operand' (after' ++ after)

/-- A text in `n` pairs of parentheses. -/
def wrap : ℕ → List Char → List Char
  | 0, text => text
  | n + 1, text => Parens.group (wrap n text)

mutual

/-- The texts of the leaves. -/
def leaves : Node → List String
  | .cap text => [text]
  | .and children => leavesEach children
  | .or children => leavesEach children
  | .with children => leavesEach children
  | .without left right => leaves left ++ leaves right
  | .if then_ cond none => leaves then_ ++ leaves cond
  | .if then_ cond (some other) => leaves then_ ++ leaves cond ++ leaves other
  | .unless then_ cond none => leaves then_ ++ leaves cond
  | .unless then_ cond (some other) => leaves then_ ++ leaves cond ++ leaves other

def leavesEach : List Node → List String
  | [] => []
  | child :: children => leaves child ++ leavesEach children

end

/-- A text whose tree `t` does not depend on redundant parentheses: it prints to a text that
    reads the same, so does the text itself with any operand in further parentheses, and no
    leaf is a boolean dependency. -/
structure Immaterial (text : String) (t : Node) : Prop where
  printed : parseBoolean (unparseBoolean t) = some t
  regrouped : ∀ n before operand after, text.toList = before ++ (operand ++ after) →
    OperandIn before operand after →
    parseBoolean (String.ofList (before ++ (wrap n operand ++ after))) = some t
  leaves : ∀ leaf ∈ leaves t, ∀ u, parseBoolean leaf = some u → ∃ cap, u = .cap cap

/-! ## The first operand -/

section First

variable {fuel : ℕ} {text operand tail : List Char} {t : Node} {op : BoolOp}

/-- The tree of the first operand. -/
def Node.first? : Node → Option Node
  | .cap _ => none
  | .and children | .or children | .with children => children.head?
  | .without left _ => some left
  | .if then_ _ _ | .unless then_ _ _ => some then_

theorem first?_of_chain {children : List Node} (h : chain op children = some t) :
    t.first? = children.head? := by
  unfold chain at h
  split at h
  all_goals first
    | (obtain rfl := Option.some.inj h; rfl)
    | exact nomatch h

theorem parseBody_strip (fuel : ℕ) (text : List Char) :
    parseBody fuel (PyText.strip text) = parseBody fuel text := by
  cases fuel with
  | zero => rfl
  | succ fuel => rw [parseBody, parseBody, PyText.strip_strip]

/-- The tree of a body starts with the tree of what stands before the first operator. -/
theorem parseBody_first {first : ℕ} {found : List (ℕ × BoolOp)}
    (htrim : PyText.strip text = text) (hgroup : isSingleGroup text = false)
    (hops : topLevelOps text = (first, op) :: found)
    (h : parseBody (fuel + 1) text = some t) :
    ∃ child, parseBody fuel (text.take first) = some child ∧ t.first? = some child := by
  have hempty : text.isEmpty = false := by
    rw [← Bool.not_eq_true, List.isEmpty_iff]
    rintro rfl
    cases hops
  rw [parseBody] at h
  simp only [htrim, hempty, hgroup, hops, Bool.false_eq_true, if_false] at h
  by_cases hcond : op = .if ∨ op = .unless
  · rw [if_pos hcond] at h
    rcases found with _ | ⟨⟨second, word⟩, found⟩
    · simp only [Option.bind_eq_bind, Option.bind_eq_some_iff] at h
      obtain ⟨then_, hthen, cond, _, h⟩ := h
      refine ⟨then_, hthen, ?_⟩
      obtain rfl := Option.some.inj h
      split_ifs <;> rfl
    rcases found with _ | ⟨third, found⟩
    · cases word with
      | «else» =>
        simp only [Option.bind_eq_bind, Option.bind_eq_some_iff] at h
        obtain ⟨then_, hthen, cond, _, other, _, h⟩ := h
        refine ⟨then_, hthen, ?_⟩
        obtain rfl := Option.some.inj h
        split_ifs <;> rfl
      | without | «unless» | «with» | and | or | «if» => cases h
    · cases word <;> cases h
  · rw [if_neg hcond] at h
    split_ifs at h
    simp only [Option.bind_eq_bind, Option.bind_eq_some_iff] at h
    obtain ⟨children, hchildren, hchain⟩ := h
    obtain ⟨operand, tail, htext, hfirst, _, _, hsplit⟩ := exists_of_topLevelOpsFrom hops
    have htake : text.take first = operand := by
      rw [htext, hfirst, zero_add, List.take_left]
    unfold splitTop at hchildren
    rw [hsplit, List.reverse_nil, List.nil_append, List.map_cons, List.mapM_cons] at hchildren
    simp only [Option.bind_eq_bind, Option.bind_eq_some_iff] at hchildren
    obtain ⟨child, hchild, rest, _, h⟩ := hchildren
    obtain rfl := Option.some.inj h
    rw [parseBody_strip] at hchild
    exact ⟨child, htake ▸ hchild, first?_of_chain hchain⟩

/-- A leaf is no longer than its text. -/
theorem length_cap_le {cap : String} (h : parseBody fuel text = some (.cap cap)) :
    cap.toList.length ≤ text.length := by
  induction fuel generalizing text with
  | zero => cases h
  | succ fuel ih =>
    have htrim := PyText.strip_strip text
    have hstrip := (PyText.strip_sublist text).length_le
    rw [← parseBody_strip] at h
    generalize PyText.strip text = stripped at h htrim hstrip
    refine le_trans ?_ hstrip
    cases hgroup : isSingleGroup stripped with
    | true =>
      have hinner : (inner stripped).length ≤ stripped.length := by
        refine le_trans (PyText.strip_sublist _).length_le ?_
        rw [List.length_dropLast, List.length_tail]
        omega
      rw [parseBody] at h
      simp only [htrim, hgroup, if_true] at h
      split_ifs at h with _ hops
      · obtain rfl := Node.cap.inj (Option.some.inj h)
        rw [String.toList_ofList]
        exact hinner
      · exact le_trans (ih h) hinner
    | false =>
      cases hops : topLevelOps stripped with
      | nil =>
        rw [parseBody] at h
        simp only [htrim, hgroup, hops, Bool.false_eq_true, if_false] at h
        split_ifs at h
        obtain rfl := Node.cap.inj (Option.some.inj h)
        rw [String.toList_ofList]
      | cons mark found =>
        obtain ⟨child, _, hfirst⟩ := parseBody_first htrim hgroup hops h
        cases hfirst

end First

/-! ## Two pairs of parentheses -/

theorem depth_of_blank {blank : List Char} (h : ∀ c ∈ blank, PyText.isSpace c = true) :
    depth blank = 0 :=
  depth_of_plain (fun hc => absurd (h _ hc) (by decide)) fun hc => absurd (h _ hc) (by decide)

theorem balanced_of_blank {blank : List Char} (h : ∀ c ∈ blank, PyText.isSpace c = true) :
    Balanced blank :=
  balanced_of_plain (fun hc => absurd (h _ hc) (by decide)) fun hc => absurd (h _ hc) (by decide)

section Doubled

variable {text : List Char} {t : Node}

/-- A body with its first operand in two pairs of parentheses. -/
structure Doubled (text operand after : List Char) : Prop where
  split : text = operand ++ after
  reads : OperandIn [] operand after
  balanced : Balanced (wrap 2 operand ++ after)
  trimmed : PyText.strip (wrap 2 operand ++ after) = wrap 2 operand ++ after
  ops : topLevelOps (wrap 2 operand ++ after) ≠ []
  parsed : ∀ fuel fuel' t, parseBody fuel text = some t →
    parseBody fuel' (wrap 2 operand ++ after) ≠ some t

/-- Two pairs of parentheses make a leaf with parentheses of its own. -/
theorem parseBody_wrap {operand : List Char} (h : Balanced operand) (fuel : ℕ) :
    parseBody (fuel + 1) (wrap 2 operand) =
      some (.cap (String.ofList (Parens.group operand))) := by
  have hgroup : isSingleGroup (wrap 2 operand) = true :=
    isSingleGroup_iff.mpr ⟨Parens.group operand, balanced_group h, rfl⟩
  have hinner : inner (wrap 2 operand) = Parens.group operand := by
    have hin := inner_group (Parens.group operand)
    rw [trimmed_group] at hin
    exact hin
  have hops : topLevelOps (Parens.group operand) = [] :=
    @topLevelOpsFrom_spliced _ [] 0 (operand_group h) fun _ hp => nomatch hp
  have htrim : PyText.strip (wrap 2 operand) = wrap 2 operand := trimmed_group _
  have hempty : (wrap 2 operand).isEmpty = false := rfl
  rw [parseBody]
  simp only [htrim, hempty, hgroup, hinner, hops, List.isEmpty_nil, Bool.false_eq_true, if_false,
    if_true]

theorem exists_doubled (hbalanced : Balanced text) (htrim : PyText.strip text = text)
    (hgroup : isSingleGroup text = false) (hops : topLevelOps text ≠ []) :
    ∃ operand after, Doubled text operand after := by
  obtain ⟨⟨first, op⟩, found, hcons⟩ := List.exists_cons_of_ne_nil hops
  obtain ⟨operand, tail, rfl, hfirst, hdepth, _, _⟩ := exists_of_topLevelOpsFrom hcons
  rw [zero_add] at hfirst hdepth
  obtain ⟨hoperand, hafter⟩ := balanced_of_cut hbalanced hdepth
  have hwrap : Balanced (wrap 2 operand) := balanced_group (balanced_group hoperand)
  have hne : op.token ++ tail ≠ [] := by
    have htoken := op.length_token
    intro hnil
    rw [(List.append_eq_nil_iff.mp hnil).1] at htoken
    cases htoken
  have htrim' : PyText.strip (wrap 2 operand ++ (op.token ++ tail)) =
      wrap 2 operand ++ (op.token ++ tail) := by
    refine PyText.strip_of_ends (fun c hc => ?_) ?_
    · obtain rfl := Option.some.inj hc
      decide
    · have hends := (PyText.strip_ends (operand ++ (op.token ++ tail))).2
      rw [htrim] at hends
      rwa [List.getLast?_append_of_ne_nil _ hne] at hends ⊢
  have hgroup' : isSingleGroup (wrap 2 operand ++ (op.token ++ tail)) = false :=
    isSingleGroup_of_operand hwrap.closed (List.cons_ne_nil _ _) hne
  have hops' : topLevelOps (wrap 2 operand ++ (op.token ++ tail)) =
      ((wrap 2 operand).length, op) ::
        topLevelOpsFrom tail ((wrap 2 operand).length + op.token.length) 0 0 := by
    have hquiet : Quiet (wrap 2 operand) := quiet_group (balanced_group hoperand)
    unfold topLevelOps
    rw [topLevelOpsFrom_quiet hquiet (ends_token op tail), hwrap.closed, topLevelOpsFrom_token,
      zero_add]
  refine ⟨operand, op.token ++ tail, rfl, .between hgroup ?_ ?_, balanced_append hwrap hafter,
    htrim', by rw [hops']; exact List.cons_ne_nil _ _, fun fuel fuel' t h h' => ?_⟩
  · rw [List.nil_append]
    exact hops
  · rw [List.nil_append, hcons, hfirst, List.length_nil, zero_add]
    exact List.mem_cons_self
  · cases fuel with
    | zero => cases h
    | succ fuel =>
      cases fuel' with
      | zero => cases h'
      | succ fuel' =>
        obtain ⟨child, hchild, hhead⟩ := parseBody_first htrim hgroup hcons h
        obtain ⟨child', hchild', hhead'⟩ := parseBody_first htrim' hgroup' hops' h'
        rw [hfirst, List.take_left] at hchild
        rw [List.take_left] at hchild'
        cases fuel' with
        | zero => cases hchild'
        | succ fuel' =>
          rw [parseBody_wrap hoperand] at hchild'
          rw [hhead] at hhead'
          rw [Option.some.inj hhead', ← hchild'] at hchild
          have hle := length_cap_le hchild
          rw [String.toList_ofList] at hle
          unfold Parens.group at hle
          rw [List.length_cons, List.length_append] at hle
          omega

/-- White space around a trimmed text, in parentheses. -/
theorem balanced_of_blanks {blank blank' : List Char}
    (hblank : ∀ c ∈ blank, PyText.isSpace c = true)
    (hblank' : ∀ c ∈ blank', PyText.isSpace c = true) :
    Balanced (blank ++ (text ++ blank')) ↔ Balanced text := by
  constructor
  · intro h
    obtain ⟨_, hrest⟩ := balanced_of_cut h (depth_of_blank hblank)
    have hclosed := hrest.closed
    rw [depth_append, depth_of_blank hblank', add_zero] at hclosed
    exact (balanced_of_cut hrest hclosed).1
  · intro h
    exact balanced_append (balanced_of_blank hblank)
      (balanced_append h (balanced_of_blank hblank'))

/-- What is an operand of a text is one of the text in parentheses. -/
theorem OperandIn.in_group {before operand after blank blank' : List Char}
    (hblank : ∀ c ∈ blank, PyText.isSpace c = true)
    (hblank' : ∀ c ∈ blank', PyText.isSpace c = true)
    (hbalanced : Balanced (before ++ (operand ++ after)))
    (htrim : PyText.strip (before ++ (operand ++ after)) = before ++ (operand ++ after))
    (h : OperandIn before operand after) :
    OperandIn ('(' :: (blank ++ before)) operand ((after ++ blank') ++ [')']) := by
  refine .group ?_ (.trimmed hblank hblank' htrim h)
  have hassoc : blank ++ before ++ (operand ++ (after ++ blank')) =
      blank ++ ((before ++ (operand ++ after)) ++ blank') := by
    simp only [List.append_assoc]
  rw [hassoc, balanced_of_blanks hblank hblank']
  exact hbalanced

/-- A text in parentheses with white space, around a part of it. -/
theorem group_blanks (blank before inside after blank' : List Char) :
    ('(' :: (blank ++ before)) ++ (inside ++ ((after ++ blank') ++ [')'])) =
      Parens.group (blank ++ ((before ++ (inside ++ after)) ++ blank')) := by
  unfold Parens.group
  simp only [List.cons_append, List.append_assoc]

end Doubled

/-- **No text is immaterial**: some operand in two pairs of parentheses reads as another tree. -/
theorem not_immaterial (text : String) (t : Node) (h : parseBoolean text = some t)
    (hroot : ∀ cap, t ≠ .cap cap) : ¬ Immaterial text t := by
  intro himm
  obtain ⟨u, v, hs, hu, hv⟩ := PyText.exists_strip text.toList
  have hparse := h
  unfold parseBoolean at hparse
  dsimp only at hparse
  split_ifs at hparse with hopen
  have hsingle : isSingleGroup (PyText.strip text.toList) = true := by
    simp only [Bool.or_eq_true, not_or, Bool.not_eq_true', Bool.not_eq_false] at hopen
    exact hopen.2
  obtain ⟨body, hbody, hgroup⟩ := isSingleGroup_iff.mp hsingle
  rw [hgroup, inner_group] at hparse
  rw [hgroup] at hs
  obtain ⟨u', v', hbody', hu', hv'⟩ := PyText.exists_strip body
  have htrim := PyText.strip_strip body
  generalize PyText.strip body = inside at hparse hbody' htrim
  subst hbody'
  have hinside : Balanced inside := (balanced_of_blanks hu' hv').mp hbody
  -- whatever is read as an operand of what is inside is one of the text
  have hregrouped : ∀ before operand after, inside = before ++ (operand ++ after) →
      OperandIn before operand after → Balanced (before ++ (wrap 2 operand ++ after)) →
      PyText.strip (before ++ (wrap 2 operand ++ after)) =
        before ++ (wrap 2 operand ++ after) →
      ∃ fuel, parseBody (fuel + 1) (before ++ (wrap 2 operand ++ after)) = some t := by
    intro before operand after hsplit hreads hbalanced' htrim'
    have hin : OperandIn (u ++ ('(' :: (u' ++ before))) operand
        (((after ++ v') ++ [')']) ++ v) := by
      rw [hsplit] at hinside htrim
      refine .trimmed hu hv ?_ (hreads.in_group hu' hv' hinside htrim)
      rw [group_blanks]
      exact trimmed_group _
    have htext : text.toList =
        (u ++ ('(' :: (u' ++ before))) ++ (operand ++ (((after ++ v') ++ [')']) ++ v)) := by
      have hg := group_blanks u' before operand after v'
      rw [hs, hsplit, ← hg]
      simp only [List.append_assoc, List.cons_append]
    have hread := himm.regrouped 2 _ operand _ htext hin
    have htext' : (u ++ ('(' :: (u' ++ before))) ++ (wrap 2 operand ++
        (((after ++ v') ++ [')']) ++ v)) =
        u ++ (Parens.group (u' ++ ((before ++ (wrap 2 operand ++ after)) ++ v')) ++ v) := by
      have hg := group_blanks u' before (wrap 2 operand) after v'
      rw [← hg]
      simp only [List.append_assoc, List.cons_append]
    rw [htext', parseBoolean_group hu hv ((balanced_of_blanks hu' hv').mpr hbalanced'),
      PyText.strip_blank hu' hv' htrim'] at hread
    exact ⟨_, hread⟩
  cases hnested : isSingleGroup inside with
  | false =>
    have hops : topLevelOps inside ≠ [] := by
      intro hnil
      rw [parseBody] at hparse
      simp only [htrim, hnested, hnil, Bool.false_eq_true, if_false] at hparse
      split_ifs at hparse
      exact hroot _ (Option.some.inj hparse).symm
    obtain ⟨operand, after, hd⟩ := exists_doubled hinside htrim hnested hops
    obtain ⟨fuel, hread⟩ := hregrouped [] operand after hd.split hd.reads hd.balanced hd.trimmed
    exact hd.parsed _ _ t hparse hread
  | true =>
    obtain ⟨body₂, hbody₂, rfl⟩ := isSingleGroup_iff.mp hnested
    have hops : topLevelOps (PyText.strip body₂) ≠ [] := by
      intro hnil
      rw [parseBody] at hparse
      simp only [htrim, hnested, inner_group, hnil, List.isEmpty_nil, if_true] at hparse
      split_ifs at hparse
      exact hroot _ (Option.some.inj hparse).symm
    rw [parseBody_group hbody₂ hops] at hparse
    obtain ⟨u₂, v₂, hsplit₂, hu₂, hv₂⟩ := PyText.exists_strip body₂
    have htrim₂ := PyText.strip_strip body₂
    generalize PyText.strip body₂ = inside₂ at hparse hsplit₂ htrim₂ hops
    subst hsplit₂
    have hinside₂ : Balanced inside₂ := (balanced_of_blanks hu₂ hv₂).mp hbody₂
    have hplain : isSingleGroup inside₂ = false := by
      rw [← Bool.not_eq_true, isSingleGroup_iff]
      rintro ⟨body₃, hbody₃, he⟩
      refine hops ?_
      rw [he]
      exact @topLevelOpsFrom_spliced _ [] 0 (operand_group hbody₃)
        fun _ hp => absurd hp List.not_mem_nil
    obtain ⟨operand, after, hd⟩ := exists_doubled hinside₂ htrim₂ hplain hops
    have hreads := hd.reads.in_group hu₂ hv₂ (hd.split ▸ hinside₂) (hd.split ▸ htrim₂)
    have hg := group_blanks u₂ [] (wrap 2 operand) after v₂
    have hdoubled : Balanced (u₂ ++ (([] ++ (wrap 2 operand ++ after)) ++ v₂)) :=
      (balanced_of_blanks hu₂ hv₂).mpr hd.balanced
    have hstrip : PyText.strip (u₂ ++ (([] ++ (wrap 2 operand ++ after)) ++ v₂)) =
        wrap 2 operand ++ after := PyText.strip_blank hu₂ hv₂ hd.trimmed
    obtain ⟨fuel, hread⟩ := hregrouped _ operand _ (by
      rw [group_blanks, List.nil_append, ← hd.split]) hreads (by
      rw [hg]
      exact balanced_group hdoubled) (by
      rw [hg]
      exact trimmed_group _)
    have hops' : topLevelOps (PyText.strip (u₂ ++ (([] ++ (wrap 2 operand ++ after)) ++ v₂))) ≠
        [] := by
      rw [hstrip]
      exact hd.ops
    rw [hg, parseBody_group hdoubled hops', hstrip] at hread
    exact hd.parsed _ _ t hparse hread

/-- A choice. -/
def aOrB : Node := .or [.cap "a", .cap "b"]

theorem not_immaterial_aOrB : ¬ Immaterial "(a or b)" aOrB :=
  not_immaterial "(a or b)" aOrB (by rfl) fun _ h => nomatch h

/-- A leaf that hides the choice. -/
def hiddenChoice : Node := .and [.cap "(a or b)", .cap "c"]

/-- It is read from parentheses too many, and prints to a text that reads as the choice. -/
theorem hidden_choice :
    parseBoolean "(((a or b)) and c)" = some hiddenChoice ∧
      parseBoolean (unparseBoolean hiddenChoice) = some (.and [aOrB, .cap "c"]) ∧
      ¬ Immaterial "(((a or b)) and c)" hiddenChoice := by
  have hread : parseBoolean (unparseBoolean hiddenChoice) = some (.and [aOrB, .cap "c"]) := rfl
  refine ⟨rfl, hread, fun himm => ?_⟩
  have hprinted := himm.printed
  rw [hread] at hprinted
  obtain ⟨hfirst, _⟩ := List.cons.inj (Node.and.inj (Option.some.inj hprinted))
  exact nomatch hfirst

end BuckosDistro.Depgraph
