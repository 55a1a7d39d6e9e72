/-
  What the scanners of the boolean parser find (`tools/depgraph.py`, `_is_single_group`,
  `_top_level_ops` and `_split_top`).

  A text without an operator word outside its parentheses is passed over by both scanners,
  whatever follows it; between two such texts they stop at the operator. A text is a single
  group when it is a balanced text between one pair of parentheses.
-/
import BuckosDistro.Depgraph.Boolean
import BuckosDistro.Lib.Parens

namespace BuckosDistro.Depgraph

open BuckosDistro.Lib BuckosDistro.Lib.Parens

/-! ## Operator words -/

namespace BoolOp

theorem token_eq (op : BoolOp) : op.token = PyText.between op.text.toList := by
  cases op <;> decide

theorem blank_notMem (op : BoolOp) : ' ' ∉ op.text.toList := by
  cases op <;> decide

theorem text_inj {op op' : BoolOp} (h : op.text.toList = op'.text.toList) : op = op' := by
  revert h
  cases op <;> cases op' <;> decide

theorem mem_all (op : BoolOp) : op ∈ all := by
  cases op <;> decide

theorem length_token (op : BoolOp) : 4 ≤ op.token.length := by
  cases op <;> decide

/-- At a token the scanner reads its operator. -/
theorem at?_token (op : BoolOp) (rest : List Char) : at? (op.token ++ rest) = some op := by
  have hself : op.token.isPrefixOf (op.token ++ rest) = true := by
    rw [List.isPrefixOf_iff_prefix]
    exact List.prefix_append _ _
  cases hfind : at? (op.token ++ rest) with
  | none =>
    unfold at? at hfind
    rw [List.find?_eq_none] at hfind
    exact absurd hself (hfind op (mem_all op))
  | some other =>
    unfold at? at hfind
    have hother := List.find?_some hfind
    have hprefix : other.token <+: op.token ++ rest := List.isPrefixOf_iff_prefix.mp hother
    rw [token_eq, token_eq] at hprefix
    exact congrArg some
      (text_inj (PyText.eq_of_between_prefix (blank_notMem other) (blank_notMem op) hprefix))

theorem at?_eq_none {text : List Char} : at? text = none ↔ ∀ op : BoolOp, ¬ op.token <+: text := by
  unfold at?
  rw [List.find?_eq_none]
  constructor
  · intro h op hop
    exact h op (mem_all op) (List.isPrefixOf_iff_prefix.mpr hop)
  · intro h op _ hop
    exact h op (List.isPrefixOf_iff_prefix.mp hop)

end BoolOp

/-! ## Quiet texts -/

/-- No operator word stands outside the parentheses of a text. -/
def Quiet (text : List Char) : Prop := ∀ op : BoolOp, Clear op.token (' ' :: (text ++ [' ']))

instance (text : List Char) : Decidable (Quiet text) :=
  decidable_of_iff (∀ op ∈ BoolOp.all, Clear op.token (' ' :: (text ++ [' '])))
    ⟨fun h op => h op op.mem_all, fun h op _ => h op⟩

/-- What may follow an operand: nothing, or the blank before an operator. -/
def Ends (rest : List Char) : Prop := ∀ c ∈ rest.head?, c = ' '

theorem ends_nil : Ends [] := fun _ h => nomatch h

theorem ends_token (op : BoolOp) (rest : List Char) : Ends (op.token ++ rest) := by
  intro c hc
  rw [op.token_eq] at hc
  exact (Option.some.inj hc).symm

section Quiet

variable {text before after rest : List Char} {op : BoolOp}

/-- A token that starts in an operand ends by the blank that follows. -/
theorem prefix_of_ends {c : Char} (hrest : Ends rest) (h : op.token <+: c :: after ++ rest) :
    op.token <+: c :: after ++ [' '] := by
  cases rest with
  | nil =>
    rw [List.append_nil] at h
    exact h.trans (List.prefix_append _ _)
  | cons d rest =>
    obtain rfl : d = ' ' := hrest d rfl
    rw [op.token_eq] at h ⊢
    obtain ⟨hc, htail⟩ := List.cons_prefix_cons.mp h
    exact List.cons_prefix_cons.mpr ⟨hc, PyText.prefix_of_blank op.blank_notMem htail⟩

/-- Where a quiet text is at depth zero, no operator is read. -/
theorem Quiet.at?_eq_none {c : Char} (h : Quiet (before ++ c :: after)) (hrest : Ends rest)
    (hdepth : depth before = 0) : BoolOp.at? (c :: after ++ rest) = none := by
  rw [BoolOp.at?_eq_none]
  intro op hop
  obtain ⟨tail, htail⟩ := prefix_of_ends hrest hop
  refine h op (' ' :: before) tail ?_ ?_
  · rw [List.append_assoc, ← htail, List.append_assoc, List.cons_append]
  · rw [depth_cons, hdepth]
    rfl

end Quiet

/-! ## The operators found -/

section Ops

variable {text before after rest : List Char} {index : ℕ} {op : BoolOp}

/-- The characters of a token already recorded are skipped. -/
theorem topLevelOpsFrom_skip (text rest : List Char) (index : ℕ) (d : ℤ) :
    topLevelOpsFrom (text ++ rest) index d text.length =
      topLevelOpsFrom rest (index + text.length) d 0 := by
  induction text generalizing index with
  | nil => rfl
  | cons c cs ih =>
    rw [List.cons_append, List.length_cons, topLevelOpsFrom, ih, Nat.add_assoc,
      Nat.add_comm 1]

theorem topLevelOpsFrom_step {c : Char} {d : ℤ} (cs : List Char)
    (h : d = 0 → BoolOp.at? (c :: cs) = none) :
    topLevelOpsFrom (c :: cs) index d 0 = topLevelOpsFrom cs (index + 1) (d + shift c) 0 := by
  rw [topLevelOpsFrom]
  split_ifs with ho hc hblank
  · rw [ho]
    rfl
  · rw [hc]
    rfl
  · rw [h hblank.1, shift_of_ne ho hc, add_zero]
  · rw [shift_of_ne ho hc, add_zero]

theorem topLevelOpsFrom_within (h : Quiet (before ++ after)) (hrest : Ends rest) :
    topLevelOpsFrom (after ++ rest) index (depth before) 0 =
      topLevelOpsFrom rest (index + after.length) (depth (before ++ after)) 0 := by
  induction after generalizing before index with
  | nil => rw [List.append_nil]; rfl
  | cons c cs ih =>
    have hsplit : before ++ c :: cs = (before ++ [c]) ++ cs := by simp
    have hat : depth before = 0 → BoolOp.at? (c :: (cs ++ rest)) = none :=
      fun hd => h.at?_eq_none hrest hd
    have hd : depth before + shift c = depth (before ++ [c]) := by simp
    rw [List.cons_append, topLevelOpsFrom_step _ hat]
    rw [hsplit] at h ⊢
    rw [hd, ih h, List.length_cons, Nat.add_assoc, Nat.add_comm 1]

/-- A quiet operand is passed over. -/
theorem topLevelOpsFrom_quiet (h : Quiet text) (hrest : Ends rest) :
    topLevelOpsFrom (text ++ rest) index 0 0 =
      topLevelOpsFrom rest (index + text.length) (depth text) 0 :=
  @topLevelOpsFrom_within [] text rest index h hrest

/-- A token outside all parentheses is found. -/
theorem topLevelOpsFrom_token (op : BoolOp) (rest : List Char) :
    topLevelOpsFrom (op.token ++ rest) index 0 0 =
      (index, op) :: topLevelOpsFrom rest (index + op.token.length) 0 0 := by
  have hat := op.at?_token rest
  have htoken : op.token = ' ' :: (op.text.toList ++ [' ']) := op.token_eq
  have hlength : op.token.length - 1 = (op.text.toList ++ [' ']).length := by
    rw [htoken]
    rfl
  have hcons : op.token ++ rest = ' ' :: ((op.text.toList ++ [' ']) ++ rest) := by
    rw [htoken]
    rfl
  rw [hcons] at hat ⊢
  rw [topLevelOpsFrom, if_neg (by decide), if_neg (by decide), if_pos ⟨rfl, rfl⟩, hat]
  dsimp only
  rw [hlength, topLevelOpsFrom_skip, htoken, List.length_cons, Nat.add_assoc, Nat.add_comm 1]

end Ops

/-! ## The operands -/

section Operands

variable {text before after rest : List Char} {op : BoolOp} {part : List Char}

theorem splitTopFrom_skip (token text rest : List Char) (d : ℤ) (part : List Char) :
    splitTopFrom token (text ++ rest) d text.length part = splitTopFrom token rest d 0 part := by
  induction text with
  | nil => rfl
  | cons c cs ih => rw [List.cons_append, List.length_cons, splitTopFrom, ih]

theorem splitTopFrom_step {token : List Char} {c : Char} {d : ℤ} (cs : List Char)
    (h : d = 0 → ¬ token <+: c :: cs) :
    splitTopFrom token (c :: cs) d 0 part =
      splitTopFrom token cs (d + shift c) 0 (c :: part) := by
  rw [splitTopFrom]
  split_ifs with ho hc htoken
  · rw [ho]
    rfl
  · rw [hc]
    rfl
  · exact absurd (List.isPrefixOf_iff_prefix.mp htoken.2) (h htoken.1)
  · rw [shift_of_ne ho hc, add_zero]

theorem splitTopFrom_within (h : Quiet (before ++ after)) (hrest : Ends rest) :
    splitTopFrom op.token (after ++ rest) (depth before) 0 part =
      splitTopFrom op.token rest (depth (before ++ after)) 0 (after.reverse ++ part) := by
  induction after generalizing before part with
  | nil =>
    rw [List.append_nil]
    rfl
  | cons c cs ih =>
    have hsplit : before ++ c :: cs = (before ++ [c]) ++ cs := by simp
    have hat : depth before = 0 → ¬ op.token <+: c :: (cs ++ rest) :=
      fun hd => BoolOp.at?_eq_none.mp (h.at?_eq_none hrest hd) op
    have hd : depth before + shift c = depth (before ++ [c]) := by simp
    rw [List.cons_append, splitTopFrom_step _ hat]
    rw [hsplit] at h ⊢
    rw [hd, ih h, List.reverse_cons, List.append_assoc cs.reverse]
    rfl

theorem splitTopFrom_quiet (h : Quiet text) (hrest : Ends rest) :
    splitTopFrom op.token (text ++ rest) 0 0 part =
      splitTopFrom op.token rest (depth text) 0 (text.reverse ++ part) :=
  @splitTopFrom_within [] text rest op part h hrest

theorem splitTopFrom_token (op : BoolOp) (rest part : List Char) :
    splitTopFrom op.token (op.token ++ rest) 0 0 part =
      part.reverse :: splitTopFrom op.token rest 0 0 [] := by
  have hself : op.token.isPrefixOf (op.token ++ rest) = true :=
    List.isPrefixOf_iff_prefix.mpr (List.prefix_append _ _)
  have htoken : op.token = ' ' :: (op.text.toList ++ [' ']) := op.token_eq
  have hlength : op.token.length - 1 = (op.text.toList ++ [' ']).length := by
    rw [htoken]
    rfl
  have hcons : op.token ++ rest = ' ' :: ((op.text.toList ++ [' ']) ++ rest) := by
    rw [htoken]
    rfl
  rw [hcons] at hself ⊢
  rw [splitTopFrom, if_neg (by decide), if_neg (by decide), if_pos ⟨rfl, hself⟩, hlength,
    splitTopFrom_skip]

/-- What comes before the first operator found is the first operand, for both scanners. -/
theorem exists_of_topLevelOpsFrom {index first : ℕ} {d : ℤ} {found : List (ℕ × BoolOp)}
    (h : topLevelOpsFrom text index d 0 = (first, op) :: found) :
    ∃ operand tail, text = operand ++ (op.token ++ tail) ∧ first = index + operand.length ∧
      d + depth operand = 0 ∧
      found = topLevelOpsFrom tail (first + op.token.length) 0 0 ∧
      ∀ part, splitTopFrom op.token text d 0 part =
        (part.reverse ++ operand) :: splitTopFrom op.token tail 0 0 [] := by
  induction text generalizing index d with
  | nil => cases h
  | cons c cs ih =>
    by_cases hat : d = 0 → BoolOp.at? (c :: cs) = none
    · rw [topLevelOpsFrom_step cs hat] at h
      obtain ⟨operand, tail, htext, hfirst, hdepth, hfound, hsplit⟩ := ih h
      refine ⟨c :: operand, tail, by rw [htext, List.cons_append], ?_, ?_, hfound, fun part => ?_⟩
      · rw [hfirst, List.length_cons]
        omega
      · rw [depth_cons, ← add_assoc]
        exact hdepth
      · rw [splitTopFrom_step cs fun hd => BoolOp.at?_eq_none.mp (hat hd) op, hsplit,
          List.reverse_cons, List.append_assoc]
        rfl
    · rw [Classical.not_imp] at hat
      obtain ⟨rfl, hsome⟩ := hat
      obtain ⟨found', hfound'⟩ := Option.ne_none_iff_exists'.mp hsome
      have hprefix := List.find?_some hfound'
      obtain ⟨tail, htail⟩ := List.isPrefixOf_iff_prefix.mp hprefix
      rw [← htail, topLevelOpsFrom_token] at h
      obtain ⟨hhead, hrest⟩ := List.cons.inj h
      obtain ⟨hfirst, rfl⟩ := Prod.mk.inj hhead
      refine ⟨[], tail, htail.symm, hfirst.symm, rfl, by rw [← hfirst]; exact hrest.symm,
        fun part => ?_⟩
      rw [← htail, splitTopFrom_token, List.append_nil]

end Operands

/-! ## Single groups -/

section Groups

variable {text body : List Char}

/-- A text that closes at its end the parentheses that are open before it, and no sooner. -/
def ClosedBy (d : ℤ) (text body : List Char) : Prop :=
  text = body ++ [')'] ∧ d + depth body = 1 ∧ ∀ before, before <+: body → 1 ≤ d + depth before

theorem closedBy_cons {d : ℤ} {c : Char} {cs : List Char} (hd : 1 ≤ d) (hc : 1 ≤ d + shift c) :
    (∃ body, ClosedBy d (c :: cs) body) ↔ ∃ body, ClosedBy (d + shift c) cs body := by
  constructor
  · intro ⟨body, htext, hclosed, hinside⟩
    cases body with
    | nil =>
      obtain ⟨rfl, -⟩ := List.cons.inj htext
      rw [depth_nil] at hclosed
      rw [shift_closing] at hc
      omega
    | cons b body =>
      obtain ⟨rfl, rfl⟩ := List.cons.inj htext
      rw [depth_cons, ← add_assoc] at hclosed
      refine ⟨body, rfl, hclosed, fun before hb => ?_⟩
      have hin := hinside (c :: before) (List.cons_prefix_cons.mpr ⟨rfl, hb⟩)
      rwa [depth_cons, ← add_assoc] at hin
  · intro ⟨body, htext, hclosed, hinside⟩
    refine ⟨c :: body, by rw [htext, List.cons_append], ?_, fun before hb => ?_⟩
    · rw [depth_cons, ← add_assoc]
      exact hclosed
    · obtain rfl | ⟨inside, rfl, hin⟩ := List.prefix_cons_iff.mp hb
      · rw [depth_nil, add_zero]
        exact hd
      · rw [depth_cons, ← add_assoc]
        exact hinside inside hin

/-- From inside parentheses, the scan ends at the one that closes them all. -/
theorem closesAtEnd_iff {d : ℤ} (hd : 1 ≤ d) :
    closesAtEnd d text = true ↔ ∃ body, ClosedBy d text body := by
  induction text generalizing d with
  | nil =>
    constructor
    · intro h
      cases h
    · intro ⟨body, htext, _⟩
      exact absurd htext (by simp)
  | cons c cs ih =>
    by_cases hlast : c = ')' ∧ d = 1
    · obtain ⟨rfl, rfl⟩ := hlast
      have hscan : closesAtEnd 1 (')' :: cs) = cs.isEmpty := rfl
      rw [hscan, List.isEmpty_iff]
      constructor
      · intro hnil
        refine ⟨[], by rw [hnil]; rfl, rfl, fun before hb => ?_⟩
        rw [List.prefix_nil.mp hb]
        decide
      · intro ⟨body, htext, _, hinside⟩
        cases body with
        | nil => exact (List.cons.inj htext).2
        | cons b body =>
          obtain ⟨rfl, -⟩ := List.cons.inj htext
          have hin := hinside [')'] (List.cons_prefix_cons.mpr ⟨rfl, List.nil_prefix⟩)
          exact absurd hin (by decide)
    · have hc : 1 ≤ d + shift c := by
        unfold shift
        split_ifs with ho hclose
        · omega
        · have hne : d ≠ 1 := fun he => hlast ⟨hclose, he⟩
          omega
        · omega
      have hscan : closesAtEnd d (c :: cs) = closesAtEnd (d + shift c) cs := by
        rw [closesAtEnd]
        split_ifs with ho hclose hzero
        · rw [ho]
          rfl
        · exact absurd ⟨hclose, by omega⟩ hlast
        · rw [hclose]
          rfl
        · rw [shift_of_ne ho hclose, add_zero]
      rw [hscan, ih hc, closedBy_cons hd hc]

/-- The outer parentheses are a text's own when what they hold is balanced. -/
theorem isSingleGroup_iff :
    isSingleGroup text = true ↔ ∃ body, Balanced body ∧ text = group body := by
  constructor
  · intro h
    unfold isSingleGroup at h
    simp only [Bool.and_eq_true, beq_iff_eq] at h
    obtain ⟨⟨hhead, _⟩, hcloses⟩ := h
    cases text with
    | nil => cases hhead
    | cons c cs =>
      obtain rfl := Option.some.inj hhead
      have hscan : closesAtEnd 0 ('(' :: cs) = closesAtEnd 1 cs := rfl
      rw [hscan, closesAtEnd_iff le_rfl] at hcloses
      obtain ⟨body, rfl, hclosed, hinside⟩ := hcloses
      refine ⟨body, ⟨by omega, fun before hb => ?_⟩, rfl⟩
      have hin := hinside before hb
      omega
  · intro ⟨body, hbody, htext⟩
    have hcloses : closesAtEnd 0 (group body) = true := by
      have hscan : closesAtEnd 0 (group body) = closesAtEnd 1 (body ++ [')']) := rfl
      rw [hscan, closesAtEnd_iff le_rfl]
      refine ⟨body, rfl, by rw [hbody.closed]; rfl, fun before hb => ?_⟩
      have hnonneg := hbody.nonneg before hb
      omega
    have hlast : (group body).getLast? = some ')' := by
      unfold group
      rw [← List.cons_append, List.getLast?_concat]
    unfold isSingleGroup
    rw [htext, hcloses, hlast]
    rfl

/-- A group goes on to the end: an operand before an operator is not one with it. -/
theorem isSingleGroup_of_operand {operand rest : List Char} (hdepth : depth operand = 0)
    (hne : operand ≠ []) (hrest : rest ≠ []) : isSingleGroup (operand ++ rest) = false := by
  rw [← Bool.not_eq_true, isSingleGroup_iff]
  intro ⟨body, hbody, htext⟩
  have hprefix : operand <+: group body := by
    rw [← htext]
    exact List.prefix_append _ _
  obtain hnil | hpos | hwhole := depth_in_group hbody hprefix
  · exact hne hnil
  · omega
  · rw [hwhole, List.append_right_eq_self] at htext
    exact hrest htext

theorem inner_group (body : List Char) : inner (group body) = PyText.strip body := by
  unfold inner group
  rw [List.tail_cons, List.dropLast_concat]

/-- Nothing in a group is outside the parentheses. -/
theorem quiet_group (h : Balanced body) : Quiet (group body) := by
  intro op before after htext hdepth
  have htoken : op.token = ' ' :: (op.text.toList ++ [' ']) := op.token_eq
  rw [List.append_assoc] at htext
  cases before with
  | nil =>
    rw [List.nil_append, htoken, List.cons_append] at htext
    have htail := (List.cons.inj htext).2
    cases op <;> exact absurd (List.cons.inj htail).1 (by decide)
  | cons b before =>
    obtain rfl : ' ' = b := (List.cons.inj htext).1
    have htail : group body ++ [' '] = before ++ (op.token ++ after) := (List.cons.inj htext).2
    rw [depth_cons, shift_of_ne (by decide) (by decide), zero_add] at hdepth
    have hprefix : before <+: group body ++ [' '] := by
      rw [htail]
      exact List.prefix_append _ _
    have hlength := congrArg List.length htail
    have hlong := op.length_token
    simp only [List.length_append, List.length_singleton] at hlength
    obtain hall | hin := List.prefix_concat_iff.mp hprefix
    · rw [hall, List.length_append, List.length_singleton] at hlength
      omega
    · obtain rfl | hpos | hwhole := depth_in_group h hin
      · rw [List.nil_append, htoken, List.cons_append] at htail
        exact absurd (List.cons.inj htail).1 (by decide)
      · omega
      · rw [hwhole] at hlength
        omega

end Groups

end BuckosDistro.Depgraph
