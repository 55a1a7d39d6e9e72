/-
  JSON pointers: the value a pointer names in a document, as the RFC of that number defines
  it. Nothing here names a program.
-/
import BuckosDistro.Lib.Json

namespace BuckosDistro.Lib.Rfc6901

/-- A reference token and what it stands for. -/
inductive Escaped : List Char → List Char → Prop where
  | nil : Escaped [] []
  | unescaped {c : Char} {raw token : List Char} (htilde : c ≠ '~') (hslash : c ≠ '/')
      (h : Escaped raw token) : Escaped (c :: raw) (c :: token)
  | tilde {raw token : List Char} (h : Escaped raw token) :
      Escaped ('~' :: '0' :: raw) ('~' :: token)
  | slash {raw token : List Char} (h : Escaped raw token) :
      Escaped ('~' :: '1' :: raw) ('/' :: token)

/-- `array-index`: zero, or digits without a leading zero. -/
inductive ArrayIndex : List Char → ℕ → Prop where
  | zero : ArrayIndex ['0'] 0
  | digits {c : Char} {cs : List Char} (hc : c ≠ '0')
      (h : ∀ d ∈ c :: cs, d.isDigit = true) : ArrayIndex (c :: cs) (Nat.ofDigitChars 10 (c :: cs) 0)

/-- The value that reference tokens name, one after another. -/
inductive Follows : Json → List (List Char) → Json → Prop where
  | whole (value : Json) : Follows value [] value
  | member {fields : Fields} {raw name : List Char} {raws : List (List Char)} {next value : Json}
      (h : Escaped raw name) (hnext : fields.lookup (String.ofList name) = some next)
      (hrest : Follows next raws value) : Follows (.obj fields) (raw :: raws) value
  | element {items : List Json} {raw text : List Char} {i : ℕ} {raws : List (List Char)}
      {next value : Json} (h : Escaped raw text) (hindex : ArrayIndex text i)
      (hnext : items[i]? = some next) (hrest : Follows next raws value) :
      Follows (.arr items) (raw :: raws) value

/-- The value a pointer names in a document. -/
def Evaluates (pointer : String) (document value : Json) : Prop :=
  ∃ raws : List (List Char), pointer.toList = (raws.map fun raw => '/' :: raw).flatten ∧
    Follows document raws value

/-! ## Grammar -/

theorem Escaped.notMem {raw token : List Char} (h : Escaped raw token) : '/' ∉ raw := by
  induction h with
  | nil => exact List.not_mem_nil
  | unescaped _ hslash _ ih => exact List.mem_cons.not.mpr (not_or.mpr ⟨Ne.symm hslash, ih⟩)
  | tilde _ ih | slash _ ih =>
    refine List.mem_cons.not.mpr (not_or.mpr ⟨by decide, ?_⟩)
    exact List.mem_cons.not.mpr (not_or.mpr ⟨by decide, ih⟩)

theorem Follows.notMem {document value : Json} {raws : List (List Char)}
    (h : Follows document raws value) : ∀ raw ∈ raws, '/' ∉ raw := by
  induction h with
  | whole => exact fun _ hraw => nomatch hraw
  | member h _ _ ih | element h _ _ _ ih => exact List.forall_mem_cons.mpr ⟨h.notMem, ih⟩

/-- An index is a numeral of its value. -/
theorem ArrayIndex.numeral {text : List Char} {i : ℕ} (h : ArrayIndex text i) :
    text ≠ [] ∧ (∀ c ∈ text, c.isDigit = true) ∧ i = Nat.ofDigitChars 10 text 0 := by
  cases h with
  | zero =>
    refine ⟨List.cons_ne_nil _ _, fun c hc => ?_, by decide⟩
    rw [List.mem_singleton.mp hc]
    decide
  | digits _ h => exact ⟨List.cons_ne_nil _ _, h, rfl⟩

end BuckosDistro.Lib.Rfc6901
