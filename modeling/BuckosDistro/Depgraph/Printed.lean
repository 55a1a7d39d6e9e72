/-
  Printing a boolean dependency and reading it back (`tools/depgraph.py`,
  `unparse_boolean` and `parse_boolean`).

  A printed tree is operands with operators between them, in parentheses. Each operand is
  passed over by the scanners, so the parser finds the operators of the root and no others,
  and hands each operand to itself.
-/
import BuckosDistro.Depgraph.Scan
import BuckosDistro.Lib.Lists

namespace BuckosDistro.Depgraph

open BuckosDistro.Lib BuckosDistro.Lib.Parens

/-! ## Operands -/

/-- A text the parser can hand to itself. -/
structure Operand (text : List Char) : Prop where
  nonempty : text ≠ []
  trimmed : PyText.strip text = text
  balanced : Balanced text
  quiet : Quiet text

instance (text : List Char) : Decidable (Operand text) :=
  decidable_of_iff (text ≠ [] ∧ PyText.strip text = text ∧ Balanced text ∧ Quiet text)
    ⟨fun ⟨hne, htrim, hbalanced, hquiet⟩ => ⟨hne, htrim, hbalanced, hquiet⟩,
      fun h => ⟨h.nonempty, h.trimmed, h.balanced, h.quiet⟩⟩

/-- Operands with operators between them. -/
def spliced (first : List Char) : List (BoolOp × List Char) → List Char
  | [] => first
  | (op, next) :: rest => first ++ (op.token ++ spliced next rest)

/-- Where the operators stand. -/
def opsAt (index : ℕ) (first : List Char) : List (BoolOp × List Char) → List (ℕ × BoolOp)
  | [] => []
  | (op, next) :: rest =>
    (index + first.length, op) :: opsAt (index + first.length + op.token.length) next rest

section Spliced

variable {first : List Char} {rest : List (BoolOp × List Char)} {op : BoolOp}

theorem topLevelOpsFrom_spliced (index : ℕ) (hfirst : Operand first)
    (hrest : ∀ part ∈ rest, Operand part.2) :
    topLevelOpsFrom (spliced first rest) index 0 0 = opsAt index first rest := by
  induction rest generalizing first index with
  | nil =>
    have hend := @topLevelOpsFrom_quiet first [] index hfirst.quiet ends_nil
    rw [List.append_nil] at hend
    rw [spliced, hend]
    rfl
  | cons part rest ih =>
    obtain ⟨op, next⟩ := part
    have hnext : Operand next := hrest _ List.mem_cons_self
    rw [spliced, topLevelOpsFrom_quiet hfirst.quiet (ends_token op _), hfirst.balanced.closed,
      topLevelOpsFrom_token, ih _ hnext fun part hp => hrest part (List.mem_cons_of_mem _ hp)]
    rfl

theorem splitTopFrom_spliced (hfirst : Operand first) {parts : List (List Char)}
    (hparts : ∀ part ∈ parts, Operand part) :
    splitTopFrom op.token (spliced first (parts.map (Prod.mk op))) 0 0 [] = first :: parts := by
  induction parts generalizing first with
  | nil =>
    have hend := @splitTopFrom_quiet first [] op [] hfirst.quiet ends_nil
    rw [List.append_nil, List.append_nil] at hend
    rw [List.map_nil, spliced, hend, splitTopFrom, List.reverse_reverse]
  | cons part parts ih =>
    have hpart : Operand part := hparts _ List.mem_cons_self
    rw [List.map_cons, spliced, splitTopFrom_quiet hfirst.quiet (ends_token op _),
      hfirst.balanced.closed, splitTopFrom_token,
      ih hpart fun part hp => hparts part (List.mem_cons_of_mem _ hp), List.append_nil,
      List.reverse_reverse]

theorem balanced_spliced (hfirst : Operand first) (hrest : ∀ part ∈ rest, Operand part.2) :
    Balanced (spliced first rest) := by
  induction rest generalizing first with
  | nil => exact hfirst.balanced
  | cons part rest ih =>
    obtain ⟨op, next⟩ := part
    have hnext : Operand next := hrest _ List.mem_cons_self
    have htoken : Balanced op.token := by cases op <;> decide
    exact balanced_append hfirst.balanced (balanced_append htoken
      (ih hnext fun part hp => hrest part (List.mem_cons_of_mem _ hp)))

theorem trimmed_spliced (hfirst : Operand first) (hrest : ∀ part ∈ rest, Operand part.2) :
    spliced first rest ≠ [] ∧ PyText.strip (spliced first rest) = spliced first rest := by
  induction rest generalizing first with
  | nil => exact ⟨hfirst.nonempty, hfirst.trimmed⟩
  | cons part rest ih =>
    obtain ⟨op, next⟩ := part
    have hnext : Operand next := hrest _ List.mem_cons_self
    obtain ⟨hne, htrim⟩ := ih hnext fun part hp => hrest part (List.mem_cons_of_mem _ hp)
    rw [spliced]
    exact ⟨by simp [hfirst.nonempty], PyText.strip_between hfirst.nonempty hfirst.trimmed hne htrim⟩

end Spliced

/-! ## The parser on operands -/

section ParseBody

variable {fuel : ℕ} {text body first : List Char} {op : BoolOp}

/-- A text with no operator outside its parentheses, and not a group, is a leaf. -/
theorem parseBody_leaf (h : Operand text) (hgroup : isSingleGroup text = false) :
    parseBody (fuel + 1) text = some (.cap (String.ofList text)) := by
  have hops := @topLevelOpsFrom_spliced text [] 0 h fun _ hp => nomatch hp
  have hnone : topLevelOps text = [] := hops
  have hempty : text.isEmpty = false := by
    rw [← Bool.not_eq_true, List.isEmpty_iff]
    exact h.nonempty
  rw [parseBody]
  simp only [h.trimmed, hempty, hgroup, hnone, Bool.false_eq_true, if_false]

theorem trimmed_group (body : List Char) : PyText.strip (group body) = group body := by
  refine PyText.strip_of_ends (fun c hc => ?_) fun c hc => ?_
  · obtain rfl := Option.some.inj hc
    decide
  · have hlast : (group body).getLast? = some ')' := by
      unfold group
      rw [← List.cons_append, List.getLast?_concat]
    rw [hlast] at hc
    obtain rfl := Option.some.inj hc
    decide

theorem operand_group (h : Balanced body) : Operand (group body) :=
  ⟨List.cons_ne_nil _ _, trimmed_group body, balanced_group h, quiet_group h⟩

/-- Parentheses around operators are taken off. -/
theorem parseBody_group (h : Balanced body) (hops : topLevelOps (PyText.strip body) ≠ []) :
    parseBody (fuel + 1) (group body) = parseBody fuel (PyText.strip body) := by
  have hgroup : isSingleGroup (group body) = true := isSingleGroup_iff.mpr ⟨body, h, rfl⟩
  have hempty : (topLevelOps (PyText.strip body)).isEmpty = false := by
    rw [← Bool.not_eq_true, List.isEmpty_iff]
    exact hops
  have hcons : (group body).isEmpty = false := rfl
  rw [parseBody]
  simp only [trimmed_group, hcons, hgroup, inner_group, hempty, Bool.false_eq_true, if_false,
    if_true]

/-- A group is read as what is in its parentheses, wherever white space stands around. -/
theorem parseBoolean_group {blank blank' : List Char}
    (hblank : ∀ c ∈ blank, PyText.isSpace c = true)
    (hblank' : ∀ c ∈ blank', PyText.isSpace c = true) (h : Balanced body) :
    parseBoolean (String.ofList (blank ++ (group body ++ blank'))) =
      parseBody ((group body).length + 1) (PyText.strip body) := by
  have hrich : isRichDep (String.ofList (group body)) = true := by
    unfold isRichDep
    rw [String.toList_ofList]
    rfl
  have hgroup : isSingleGroup (group body) = true := isSingleGroup_iff.mpr ⟨body, h, rfl⟩
  unfold parseBoolean
  rw [String.toList_ofList, PyText.strip_blank hblank hblank' (trimmed_group body)]
  simp only [hrich, hgroup, inner_group, Bool.not_true, Bool.or_self, Bool.false_eq_true,
    if_false]

/-- What the parser goes by when it reads operands with operators between them. -/
theorem spliced_read {rest : List (BoolOp × List Char)} (hfirst : Operand first)
    (hrest : ∀ part ∈ rest, Operand part.2) (hne : rest ≠ []) :
    PyText.strip (spliced first rest) = spliced first rest ∧
      (spliced first rest).isEmpty = false ∧ isSingleGroup (spliced first rest) = false ∧
      topLevelOps (spliced first rest) = opsAt 0 first rest := by
  obtain ⟨hcons, htrim⟩ := trimmed_spliced hfirst hrest
  refine ⟨htrim, ?_, ?_, topLevelOpsFrom_spliced 0 hfirst hrest⟩
  · rw [← Bool.not_eq_true, List.isEmpty_iff]
    exact hcons
  · cases rest with
    | nil => exact absurd rfl hne
    | cons part rest =>
      obtain ⟨op, next⟩ := part
      have htoken := op.length_token
      refine isSingleGroup_of_operand hfirst.balanced.closed hfirst.nonempty fun hnil => ?_
      rw [List.append_eq_nil_iff] at hnil
      rw [hnil.1] at htoken
      cases htoken

/-- The operators of a chain are all the same. -/
theorem opsAt_chain (index : ℕ) (first : List Char) (parts : List (List Char)) :
    ∀ mark ∈ opsAt index first (parts.map (Prod.mk op)), mark.2 = op := by
  induction parts generalizing index first with
  | nil => exact fun _ hm => nomatch hm
  | cons part parts ih =>
    intro mark hmark
    obtain rfl | hmark := List.mem_cons.mp hmark
    · rfl
    · exact ih _ _ mark hmark

/-- A chain of one operator is its operands, read one by one. -/
theorem parseBody_chain {part : List Char} {parts : List (List Char)} {nodes : List Node}
    (hop : ¬ (op = .if ∨ op = .unless)) (hfirst : Operand first)
    (hparts : ∀ p ∈ part :: parts, Operand p)
    (hnodes : (first :: part :: parts).mapM (parseBody fuel) = some nodes) :
    parseBody (fuel + 1) (spliced first ((part :: parts).map (Prod.mk op))) = chain op nodes := by
  have hrest : ∀ p ∈ (part :: parts).map (Prod.mk op), Operand p.2 := by
    intro p hp
    obtain ⟨q, hq, rfl⟩ := List.mem_map.mp hp
    exact hparts q hq
  obtain ⟨htrim, hempty, hgroup, hops⟩ := spliced_read hfirst hrest (List.cons_ne_nil _ _)
  have hsame : ((opsAt (0 + first.length + op.token.length) part
      (parts.map (Prod.mk op))).any fun mark => mark.2 != op) = false := by
    rw [List.any_eq_false]
    intro mark hmark
    rw [opsAt_chain _ part parts mark hmark]
    simp
  have hsplit : splitTop (spliced first ((part :: parts).map (Prod.mk op))) op =
      first :: part :: parts := by
    unfold splitTop
    rw [splitTopFrom_spliced hfirst hparts]
    have htrimmed : ∀ p ∈ first :: part :: parts, PyText.strip p = p := by
      intro p hp
      obtain rfl | hp := List.mem_cons.mp hp
      · exact hfirst.trimmed
      · exact (hparts p hp).trimmed
    rw [List.map_congr_left htrimmed, List.map_id']
  rw [List.map_cons] at htrim hempty hgroup hops hsplit ⊢
  rw [parseBody]
  simp only [htrim, hempty, hgroup, hops, hsplit, hnodes, Bool.false_eq_true, if_false, opsAt,
    hop, hsame, Option.bind_eq_bind, Option.bind_some]

/-- The node a conditional builds. -/
def conditional (op : BoolOp) (then_ cond : Node) (else_ : Option Node) : Node :=
  if op = .if then .if then_ cond else_ else .unless then_ cond else_

theorem parseBody_conditional {second : List Char} {then_ cond : Node}
    (hop : op = .if ∨ op = .unless) (hfirst : Operand first) (hsecond : Operand second)
    (hthen : parseBody fuel first = some then_) (hcond : parseBody fuel second = some cond) :
    parseBody (fuel + 1) (spliced first [(op, second)]) =
      some (conditional op then_ cond none) := by
  have hrest : ∀ p ∈ [(op, second)], Operand p.2 := by
    intro p hp
    obtain rfl := List.mem_singleton.mp hp
    exact hsecond
  obtain ⟨htrim, hempty, hgroup, hops⟩ := spliced_read hfirst hrest (List.cons_ne_nil _ _)
  have hsplice : spliced first [(op, second)] = first ++ (op.token ++ second) := rfl
  rw [hsplice] at htrim hempty hgroup hops ⊢
  have htake : (first ++ (op.token ++ second)).take (0 + first.length) = first := by
    rw [zero_add, List.take_left]
  have hdrop : (first ++ (op.token ++ second)).drop (0 + first.length + op.token.length) =
      second := by
    rw [zero_add, ← List.append_assoc, ← List.length_append, List.drop_left]
  rw [parseBody]
  simp only [htrim, hempty, hgroup, hops, Bool.false_eq_true, if_false, opsAt, hop, if_true,
    htake, hdrop, hthen, hcond, Option.bind_eq_bind, Option.bind_some]
  unfold conditional
  split_ifs <;> rfl

theorem parseBody_conditional_else {second third : List Char} {then_ cond other : Node}
    (hop : op = .if ∨ op = .unless) (hfirst : Operand first) (hsecond : Operand second)
    (hthird : Operand third) (hthen : parseBody fuel first = some then_)
    (hcond : parseBody fuel second = some cond) (hother : parseBody fuel third = some other) :
    parseBody (fuel + 1) (spliced first [(op, second), (.else, third)]) =
      some (conditional op then_ cond (some other)) := by
  have hrest : ∀ p ∈ [(op, second), (BoolOp.else, third)], Operand p.2 := by
    intro p hp
    obtain rfl | hp := List.mem_cons.mp hp
    · exact hsecond
    · obtain rfl := List.mem_singleton.mp hp
      exact hthird
  obtain ⟨htrim, hempty, hgroup, hops⟩ := spliced_read hfirst hrest (List.cons_ne_nil _ _)
  have hsplice : spliced first [(op, second), (.else, third)] =
      (first ++ op.token) ++ (second ++ (BoolOp.else.token ++ third)) := by
    rw [spliced, spliced, spliced, List.append_assoc]
  rw [hsplice] at htrim hempty hgroup hops ⊢
  have hlength : 0 + first.length + op.token.length = (first ++ op.token).length := by
    rw [zero_add, List.length_append]
  have htake : ((first ++ op.token) ++ (second ++ (BoolOp.else.token ++ third))).take
      (0 + first.length) = first := by
    rw [zero_add, List.append_assoc, List.take_left]
  have hdrop : (((first ++ op.token) ++ (second ++ (BoolOp.else.token ++ third))).take
      (0 + first.length + op.token.length + second.length)).drop
      (0 + first.length + op.token.length) = second := by
    rw [hlength, List.drop_take, List.drop_left, Nat.add_sub_cancel_left, List.take_left]
  have hlast : ((first ++ op.token) ++ (second ++ (BoolOp.else.token ++ third))).drop
      (0 + first.length + op.token.length + second.length + BoolOp.else.token.length) =
      third := by
    rw [hlength, ← List.append_assoc, ← List.append_assoc, ← List.length_append,
      ← List.length_append, List.drop_left]
  rw [parseBody]
  simp only [htrim, hempty, hgroup, hops, Bool.false_eq_true, if_false, opsAt, hop, if_true,
    htake, hdrop, hlast, hthen, hcond, hother, Option.bind_eq_bind, Option.bind_some]
  unfold conditional
  split_ifs <;> rfl

end ParseBody

/-! ## Trees that print -/

/-- A leaf: a text that is not in parentheses, and reads as itself. -/
structure LeafText (text : List Char) : Prop extends Operand text where
  plain : text.head? ≠ some '('

instance (text : List Char) : Decidable (LeafText text) :=
  decidable_of_iff (Operand text ∧ text.head? ≠ some '(')
    ⟨fun h => ⟨h.1, h.2⟩, fun h => ⟨h.toOperand, h.plain⟩⟩

/-- The trees of the grammar. -/
inductive WellFormed : Node → Prop where
  | cap {text : String} (h : LeafText text.toList) : WellFormed (.cap text)
  | and {children : List Node} (hlen : 2 ≤ children.length)
      (h : ∀ child ∈ children, WellFormed child) : WellFormed (.and children)
  | or {children : List Node} (hlen : 2 ≤ children.length)
      (h : ∀ child ∈ children, WellFormed child) : WellFormed (.or children)
  | with {children : List Node} (hlen : 2 ≤ children.length)
      (h : ∀ child ∈ children, WellFormed child) : WellFormed (.with children)
  | without {left right : Node} (hl : WellFormed left) (hr : WellFormed right) :
      WellFormed (.without left right)
  | if {then_ cond : Node} (ht : WellFormed then_) (hc : WellFormed cond) :
      WellFormed (.if then_ cond none)
  | ifElse {then_ cond other : Node} (ht : WellFormed then_) (hc : WellFormed cond)
      (ho : WellFormed other) : WellFormed (.if then_ cond (some other))
  | unless {then_ cond : Node} (ht : WellFormed then_) (hc : WellFormed cond) :
      WellFormed (.unless then_ cond none)
  | unlessElse {then_ cond other : Node} (ht : WellFormed then_) (hc : WellFormed cond)
      (ho : WellFormed other) : WellFormed (.unless then_ cond (some other))

/-- The text of a tree. -/
def printed (t : Node) : List Char := (unparseBoolean t).toList

/-- A tree whose text the parser can hand to itself, and reads as the tree. -/
structure Readable (t : Node) : Prop where
  operand : Operand (printed t)
  parsed : ∀ fuel, (printed t).length < fuel → parseBody fuel (printed t) = some t

/-- A tree printed as a group, which the parser reads inside its parentheses. -/
structure PrintedGroup (t : Node) (body : List Char) : Prop where
  printed : printed t = group body
  balanced : Balanced body
  trimmed : PyText.strip body = body
  ops : topLevelOps body ≠ []
  parsed : ∀ fuel, body.length < fuel → parseBody fuel body = some t

section Trees

variable {t : Node} {body first second third : List Char} {op : BoolOp}

theorem PrintedGroup.readable (h : PrintedGroup t body) : Readable t := by
  refine ⟨?_, fun fuel hfuel => ?_⟩
  · rw [h.printed]
    exact operand_group h.balanced
  · rw [h.printed] at hfuel ⊢
    unfold group at hfuel
    rw [List.length_cons, List.length_append] at hfuel
    obtain ⟨fuel, rfl⟩ := Nat.exists_eq_succ_of_ne_zero (Nat.ne_zero_of_lt hfuel)
    have hops : topLevelOps (PyText.strip body) ≠ [] := by
      rw [h.trimmed]
      exact h.ops
    rw [Nat.succ_eq_add_one, parseBody_group h.balanced hops, h.trimmed]
    exact h.parsed fuel (by omega)

/-- The parser's way from the text of a group to its tree. -/
theorem PrintedGroup.parseBoolean (h : PrintedGroup t body) :
    parseBoolean (unparseBoolean t) = some t := by
  have htext : unparseBoolean t = String.ofList ([] ++ (group body ++ [])) := by
    rw [List.nil_append, List.append_nil, ← h.printed]
    exact (String.ofList_toList).symm
  have hnone : ∀ c ∈ ([] : List Char), PyText.isSpace c = true := fun _ hc => nomatch hc
  rw [htext, parseBoolean_group hnone hnone h.balanced, h.trimmed]
  refine h.parsed _ ?_
  unfold group
  rw [List.length_cons, List.length_append]
  omega

theorem printedGroup_of_spliced {rest : List (BoolOp × List Char)}
    (htext : printed t = group (spliced first rest)) (hfirst : Operand first)
    (hrest : ∀ part ∈ rest, Operand part.2) (hne : rest ≠ [])
    (hparsed : ∀ fuel, (spliced first rest).length < fuel →
      parseBody fuel (spliced first rest) = some t) :
    PrintedGroup t (spliced first rest) := by
  obtain ⟨htrim, _, _, hops⟩ := spliced_read hfirst hrest hne
  refine ⟨htext, balanced_spliced hfirst hrest, htrim, ?_, hparsed⟩
  rw [hops]
  cases rest with
  | nil => exact absurd rfl hne
  | cons part rest => exact List.cons_ne_nil _ _

/-- An operand is shorter than what it is spliced into. -/
theorem length_le_spliced (first : List Char) (rest : List (BoolOp × List Char)) :
    first.length ≤ (spliced first rest).length ∧
      ∀ part ∈ rest, part.2.length ≤ (spliced first rest).length := by
  induction rest generalizing first with
  | nil => exact ⟨le_rfl, fun _ hp => nomatch hp⟩
  | cons part rest ih =>
    obtain ⟨op, next⟩ := part
    obtain ⟨hnext, hrest⟩ := ih next
    rw [spliced, List.length_append, List.length_append]
    refine ⟨by omega, fun part hp => ?_⟩
    obtain rfl | hp := List.mem_cons.mp hp
    · show next.length ≤ _
      omega
    · have hle := hrest part hp
      omega

theorem length_lt_spliced {rest : List (BoolOp × List Char)} (hne : rest ≠ []) :
    first.length < (spliced first rest).length ∧
      ∀ part ∈ rest, part.2.length < (spliced first rest).length := by
  cases rest with
  | nil => exact absurd rfl hne
  | cons part rest =>
    obtain ⟨op, next⟩ := part
    obtain ⟨hnext, hrest⟩ := length_le_spliced next rest
    have htoken := op.length_token
    rw [spliced, List.length_append, List.length_append]
    refine ⟨by omega, fun part hp => ?_⟩
    obtain rfl | hp := List.mem_cons.mp hp
    · show next.length < _
      omega
    · have hle := hrest part hp
      omega

/-! ### Chains -/

theorem toList_join (op : BoolOp) (child : Node) (children : List Node) :
    (PyText.join (" " ++ op.text ++ " ") (unparseEach (child :: children))).toList =
      spliced (printed child) ((children.map printed).map (Prod.mk op)) := by
  have htoken : (" " ++ op.text ++ " ").toList = op.token := rfl
  induction children generalizing child with
  | nil => rfl
  | cons next children ih =>
    have hjoin : PyText.join (" " ++ op.text ++ " ") (unparseEach (child :: next :: children)) =
        unparseBoolean child ++ (" " ++ op.text ++ " ") ++
          PyText.join (" " ++ op.text ++ " ") (unparseEach (next :: children)) := rfl
    rw [hjoin, String.toList_append, String.toList_append, ih next, htoken, List.append_assoc]
    rfl

theorem printedGroup_chain {children : List Node} (hop : ¬ (op = .if ∨ op = .unless))
    (hlen : 2 ≤ children.length) (h : ∀ child ∈ children, Readable child)
    (hchain : chain op children = some t)
    (htext : unparseBoolean t =
      "(" ++ PyText.join (" " ++ op.text ++ " ") (unparseEach children) ++ ")") :
    ∃ body, PrintedGroup t body := by
  obtain ⟨child, next, children, rfl⟩ : ∃ a b cs, children = a :: b :: cs := by
    match children, hlen with
    | a :: b :: cs, _ => exact ⟨a, b, cs, rfl⟩
  have hparts : ∀ part ∈ (next :: children).map printed, Operand part := by
    intro part hpart
    obtain ⟨c, hc, rfl⟩ := List.mem_map.mp hpart
    exact (h c (List.mem_cons_of_mem _ hc)).operand
  have hrest : ∀ part ∈ ((next :: children).map printed).map (Prod.mk op), Operand part.2 := by
    intro part hpart
    obtain ⟨p, hp, rfl⟩ := List.mem_map.mp hpart
    exact hparts p hp
  have hfirst := (h child List.mem_cons_self).operand
  refine ⟨_, printedGroup_of_spliced ?_ hfirst hrest (List.cons_ne_nil _ _) fun fuel hfuel => ?_⟩
  · unfold printed
    rw [htext, String.toList_append, String.toList_append, toList_join]
    rfl
  · obtain ⟨hshort, hshorts⟩ := @length_lt_spliced (printed child)
      (((next :: children).map printed).map (Prod.mk op)) (List.cons_ne_nil _ _)
    obtain ⟨fuel, rfl⟩ := Nat.exists_eq_succ_of_ne_zero (Nat.ne_zero_of_lt hfuel)
    have hnodes : ((child :: next :: children).map printed).mapM (parseBody fuel) =
        some (child :: next :: children) := by
      rw [List.mapM_map]
      have hread : ∀ c ∈ child :: next :: children,
          (parseBody fuel ∘ printed) c = some (id c) := by
        intro c hc
        refine (h c hc).parsed fuel ?_
        obtain rfl | hc := List.mem_cons.mp hc
        · omega
        · have hlt := hshorts _ (List.mem_map_of_mem (List.mem_map_of_mem hc))
          show (printed c).length < fuel
          exact Nat.lt_of_lt_of_le hlt (Nat.lt_succ_iff.mp hfuel)
      rw [Lists.mapM_of_forall hread, List.map_id]
    rw [← hchain]
    exact parseBody_chain hop hfirst hparts hnodes

/-! ### Conditionals -/

theorem printedGroup_conditional {then_ cond : Node} (hop : op = .if ∨ op = .unless)
    (hthen : Readable then_) (hcond : Readable cond)
    (htext : unparseBoolean (conditional op then_ cond none) =
      "(" ++ unparseBoolean then_ ++ (" " ++ op.text ++ " ") ++ unparseBoolean cond ++ ")") :
    PrintedGroup (conditional op then_ cond none)
      (spliced (printed then_) [(op, printed cond)]) := by
  have htoken : (" " ++ op.text ++ " ").toList = op.token := rfl
  have hrest : ∀ p ∈ [(op, printed cond)], Operand p.2 := by
    intro p hp
    obtain rfl := List.mem_singleton.mp hp
    exact hcond.operand
  refine printedGroup_of_spliced ?_ hthen.operand hrest (List.cons_ne_nil _ _) fun fuel hfuel => ?_
  · unfold printed
    rw [htext]
    simp only [String.toList_append, htoken, spliced, group]
    simp
  · obtain ⟨hshort, hshorts⟩ := @length_lt_spliced (printed then_)
      [(op, printed cond)] (List.cons_ne_nil _ _)
    have hlt : (printed cond).length < _ := hshorts _ List.mem_cons_self
    obtain ⟨fuel, rfl⟩ := Nat.exists_eq_succ_of_ne_zero (Nat.ne_zero_of_lt hfuel)
    exact parseBody_conditional hop hthen.operand hcond.operand
      (hthen.parsed fuel (by omega)) (hcond.parsed fuel (by omega))

theorem printedGroup_conditional_else {then_ cond other : Node} (hop : op = .if ∨ op = .unless)
    (hthen : Readable then_) (hcond : Readable cond) (hother : Readable other)
    (htext : unparseBoolean (conditional op then_ cond (some other)) =
      "(" ++ unparseBoolean then_ ++ (" " ++ op.text ++ " ") ++ unparseBoolean cond ++
        " else " ++ unparseBoolean other ++ ")") :
    PrintedGroup (conditional op then_ cond (some other))
      (spliced (printed then_) [(op, printed cond), (.else, printed other)]) := by
  have htoken : (" " ++ op.text ++ " ").toList = op.token := rfl
  have helse : " else ".toList = BoolOp.else.token := rfl
  have hrest : ∀ p ∈ [(op, printed cond), (BoolOp.else, printed other)], Operand p.2 := by
    intro p hp
    obtain rfl | hp := List.mem_cons.mp hp
    · exact hcond.operand
    · obtain rfl := List.mem_singleton.mp hp
      exact hother.operand
  refine printedGroup_of_spliced ?_ hthen.operand hrest (List.cons_ne_nil _ _) fun fuel hfuel => ?_
  · unfold printed
    rw [htext]
    simp only [String.toList_append, htoken, helse, spliced, group]
    simp
  · obtain ⟨hshort, hshorts⟩ := @length_lt_spliced (printed then_)
      [(op, printed cond), (.else, printed other)] (List.cons_ne_nil _ _)
    have hlt : (printed cond).length < _ := hshorts _ List.mem_cons_self
    have hlt' : (printed other).length < _ := hshorts _ (List.mem_cons_of_mem _ List.mem_cons_self)
    obtain ⟨fuel, rfl⟩ := Nat.exists_eq_succ_of_ne_zero (Nat.ne_zero_of_lt hfuel)
    exact parseBody_conditional_else hop hthen.operand hcond.operand hother.operand
      (hthen.parsed fuel (by omega)) (hcond.parsed fuel (by omega)) (hother.parsed fuel (by omega))

/-! ### All trees -/

theorem readable_leaf {text : String} (h : LeafText text.toList) : Readable (.cap text) := by
  refine ⟨h.toOperand, fun fuel hfuel => ?_⟩
  have hgroup : isSingleGroup text.toList = false := by
    rw [← Bool.not_eq_true, isSingleGroup_iff]
    intro ⟨body, _, htext⟩
    exact h.plain (by rw [htext]; rfl)
  obtain ⟨fuel, rfl⟩ := Nat.exists_eq_succ_of_ne_zero (Nat.ne_zero_of_lt hfuel)
  have hleaf := @parseBody_leaf fuel text.toList h.toOperand hgroup
  rw [String.ofList_toList] at hleaf
  exact hleaf

/-- Every tree but a leaf prints as a group. -/
theorem printedGroup_of_wellFormed (h : WellFormed t) :
    Readable t ∧ ((∀ text, t ≠ .cap text) → ∃ body, PrintedGroup t body) := by
  have hof : ∀ {t}, (∃ body, PrintedGroup t body) →
      Readable t ∧ ((∀ text, t ≠ .cap text) → ∃ body, PrintedGroup t body) :=
    fun hbody => ⟨hbody.choose_spec.readable, fun _ => hbody⟩
  induction h with
  | cap h => exact ⟨readable_leaf h, fun hroot => absurd rfl (hroot _)⟩
  | @and children hlen _ ih =>
    refine hof (@printedGroup_chain _ .and children (by decide) hlen (fun c hc => (ih c hc).1)
      rfl ?_)
    rw [unparseBoolean]
    rfl
  | @or children hlen _ ih =>
    refine hof (@printedGroup_chain _ .or children (by decide) hlen (fun c hc => (ih c hc).1)
      rfl ?_)
    rw [unparseBoolean]
    rfl
  | @«with» children hlen _ ih =>
    refine hof (@printedGroup_chain _ .with children (by decide) hlen (fun c hc => (ih c hc).1)
      rfl ?_)
    rw [unparseBoolean]
    rfl
  | @without left right _ _ ihl ihr =>
    have hpair : ∀ child ∈ [left, right], Readable child := by
      intro child hchild
      obtain rfl | hchild := List.mem_cons.mp hchild
      · exact ihl.1
      · obtain rfl := List.mem_singleton.mp hchild
        exact ihr.1
    refine hof (@printedGroup_chain _ .without [left, right] (by decide) le_rfl hpair rfl ?_)
    rw [unparseBoolean]
    simp only [unparseEach, PyText.join, String.append_assoc]
    rfl
  | «if» _ _ iht ihc =>
    refine hof ⟨_, @printedGroup_conditional .if _ _ (Or.inl rfl) iht.1 ihc.1 ?_⟩
    rfl
  | ifElse _ _ _ iht ihc iho =>
    refine hof ⟨_, @printedGroup_conditional_else .if _ _ _ (Or.inl rfl) iht.1 ihc.1 iho.1 ?_⟩
    rfl
  | «unless» _ _ iht ihc =>
    refine hof ⟨_, @printedGroup_conditional .unless _ _ (Or.inr rfl) iht.1 ihc.1 ?_⟩
    rfl
  | unlessElse _ _ _ iht ihc iho =>
    refine hof ⟨_, @printedGroup_conditional_else .unless _ _ _ (Or.inr rfl) iht.1 ihc.1
      iho.1 ?_⟩
    rfl

end Trees

/-- **Parsing undoes printing** of every tree that is not a leaf. -/
theorem parse_unparse (t : Node) (h : WellFormed t) (hroot : ∀ text, t ≠ .cap text) :
    parseBoolean (unparseBoolean t) = some t := by
  obtain ⟨body, hbody⟩ := (printedGroup_of_wellFormed h).2 hroot
  exact hbody.parseBoolean

/-- A conditional over a range and a choice. -/
def rpmBuildRange : Node :=
  .if (.with [.cap "crate(rpm/default) >= 4.14.90",
    .or [.cap "crate(rpm/default) < 4.19.90", .cap "rpm-build"]]) (.cap "rpm-build") none

theorem parse_unparse_rpmBuildRange :
    parseBoolean (unparseBoolean rpmBuildRange) = some rpmBuildRange := by
  have hleaf : ∀ text ∈ ["crate(rpm/default) >= 4.14.90", "crate(rpm/default) < 4.19.90",
      "rpm-build"], LeafText text.toList := by
    decide +kernel
  have hbuild : WellFormed (.cap "rpm-build") := .cap (hleaf _ (by simp))
  have hchoice : WellFormed (.or [.cap "crate(rpm/default) < 4.19.90", .cap "rpm-build"]) := by
    refine .or le_rfl fun child hchild => ?_
    obtain rfl | hchild := List.mem_cons.mp hchild
    · exact .cap (hleaf _ (by simp))
    · obtain rfl := List.mem_singleton.mp hchild
      exact hbuild
  have hrange : WellFormed (.with [.cap "crate(rpm/default) >= 4.14.90",
      .or [.cap "crate(rpm/default) < 4.19.90", .cap "rpm-build"]]) := by
    refine .with le_rfl fun child hchild => ?_
    obtain rfl | hchild := List.mem_cons.mp hchild
    · exact .cap (hleaf _ (by simp))
    · obtain rfl := List.mem_singleton.mp hchild
      exact hchoice
  exact parse_unparse rpmBuildRange (.if hrange hbuild) fun _ h => nomatch h

end BuckosDistro.Depgraph
