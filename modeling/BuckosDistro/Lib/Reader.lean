/-
  Readers of bytes at an offset: what a reader reads as a grammar of the bytes it goes over,
  sequences of readers, and the loop that reads to the end. Nothing here names a format.
-/
import BuckosDistro.Lib.Raise

namespace BuckosDistro.Lib

/-- A function that reads a value at an offset, and says where it stopped. -/
abbrev ReadAt (α : Type) := List UInt8 → ℕ → Except String (α × ℕ)

variable {α β : Type}

/-- The values of `read` are the ones `grammar` spells, and it stops behind their spelling. -/
def Spells (read : ReadAt α) (grammar : List UInt8 → α → Prop) : Prop :=
  ∀ data offset a next, offset ≤ data.length → (read data offset = .ok (a, next) ↔
    ∃ bytes rest, grammar bytes a ∧ data.drop offset = bytes ++ rest ∧
      next = offset + bytes.length)

/-- Values spelled one after another. -/
inductive Spelling (grammar : List UInt8 → α → Prop) : List UInt8 → List α → Prop where
  | nil : Spelling grammar [] []
  | cons {bytes rest : List UInt8} {a : α} {as : List α} (h : grammar bytes a)
      (hrest : Spelling grammar rest as) : Spelling grammar (bytes ++ rest) (a :: as)

/-! ## Parts -/

/-- `data[offset:end]`, where the text says what is missing when it goes past the end. -/
def readSlice (length : ℕ) (text : String) : ReadAt (List UInt8) := fun data offset => do
  raiseIf (data.length < offset + length) text
  return ((data.drop offset).take length, offset + length)

theorem spells_readSlice (length : ℕ) (text : String) :
    Spells (readSlice length text) fun bytes a => bytes = a ∧ bytes.length = length := by
  intro data offset a next hoffset
  unfold readSlice
  simp only [Raise.bind_ok, Raise.raiseIf_ok, Raise.pure_ok, Prod.mk.injEq, exists_const]
  constructor
  · rintro ⟨hlength, ha, hnext⟩
    have hdrop : length ≤ (data.drop offset).length := by
      rw [List.length_drop]
      omega
    have htake : ((data.drop offset).take length).length = length :=
      List.length_take_of_le hdrop
    refine ⟨a, (data.drop offset).drop length, ⟨rfl, by rw [← ha, htake]⟩, ?_, ?_⟩
    · rw [← ha, List.take_append_drop]
    · rw [← hnext, ← ha, htake]
  · rintro ⟨bytes, rest, ⟨ha, hlength⟩, hdata, hnext⟩
    have hle := congrArg List.length hdata
    rw [List.length_drop, List.length_append] at hle
    refine ⟨by omega, ?_, ?_⟩
    · rw [hdata, ← hlength, List.take_left, ha]
    · rw [hnext, hlength]

/-- What a reader goes over is in the data. -/
theorem Spells.le_length {read : ReadAt α} {grammar : List UInt8 → α → Prop}
    (h : Spells read grammar) {data : List UInt8} {offset : ℕ} {a : α} {next : ℕ}
    (hoffset : offset ≤ data.length) (hread : read data offset = .ok (a, next)) :
    offset ≤ next ∧ next ≤ data.length := by
  obtain ⟨bytes, rest, _, hdata, rfl⟩ := (h data offset a next hoffset).mp hread
  have hle := congrArg List.length hdata
  rw [List.length_drop, List.length_append] at hle
  omega

/-! ## One after another -/

/-- A reader, and what to read behind the value it read. -/
def readThen (read : ReadAt α) (readNext : α → ReadAt β) : ReadAt β := fun data offset => do
  let (a, next) ← read data offset
  readNext a data next

theorem spells_readThen {read : ReadAt α} {readNext : α → ReadAt β}
    {grammar : List UInt8 → α → Prop} {grammarNext : α → List UInt8 → β → Prop}
    (h : Spells read grammar) (hnext : ∀ a, Spells (readNext a) (grammarNext a)) :
    Spells (readThen read readNext) fun bytes b =>
      ∃ first second a, bytes = first ++ second ∧ grammar first a ∧ grammarNext a second b := by
  intro data offset b next hoffset
  unfold readThen
  rw [Raise.bind_ok]
  constructor
  · intro ⟨⟨a, mid⟩, hread, hreadNext⟩
    obtain ⟨_, hmid⟩ := h.le_length hoffset hread
    obtain ⟨first, rest, hfirst, hdata, rfl⟩ := (h data offset a mid hoffset).mp hread
    obtain ⟨second, rest', hsecond, hdata', rfl⟩ := (hnext a data _ b next hmid).mp hreadNext
    rw [← List.drop_drop, hdata, List.drop_left] at hdata'
    refine ⟨first ++ second, rest', ⟨first, second, a, rfl, hfirst, hsecond⟩, ?_, ?_⟩
    · rw [hdata, hdata', List.append_assoc]
    · rw [List.length_append, Nat.add_assoc]
  · intro ⟨bytes, rest, ⟨first, second, a, hbytes, hfirst, hsecond⟩, hdata, hlast⟩
    subst hbytes
    rw [List.append_assoc] at hdata
    have hread : read data offset = .ok (a, offset + first.length) :=
      (h data offset a _ hoffset).mpr ⟨first, second ++ rest, hfirst, hdata, rfl⟩
    refine ⟨(a, offset + first.length), hread, ?_⟩
    rw [hnext a data _ b next (h.le_length hoffset hread).2]
    refine ⟨second, rest, hsecond, ?_, ?_⟩
    · rw [← List.drop_drop, hdata, List.drop_left]
    · rw [hlast, List.length_append, Nat.add_assoc]

/-- Nothing is read. -/
def readPure (a : α) : ReadAt α := fun _ offset => .ok (a, offset)

theorem spells_readPure (b : α) : Spells (readPure b) fun bytes a => bytes = [] ∧ a = b := by
  intro data offset a next _
  unfold readPure
  rw [Except.ok.injEq, Prod.mk.injEq]
  constructor
  · intro ⟨ha, hnext⟩
    exact ⟨[], _, ⟨rfl, ha.symm⟩, rfl, hnext.symm⟩
  · intro ⟨bytes, rest, ⟨hbytes, ha⟩, _, hnext⟩
    rw [hbytes] at hnext
    exact ⟨ha.symm, hnext.symm⟩

/-- A reader behind a check. -/
def readUnless (bad : Prop) [Decidable bad] (text : String) (read : ReadAt α) : ReadAt α :=
  fun data offset => do
    raiseIf bad text
    read data offset

theorem spells_readUnless {bad : Prop} [Decidable bad] {text : String} {read : ReadAt α}
    {grammar : List UInt8 → α → Prop} (h : Spells read grammar) :
    Spells (readUnless bad text read) fun bytes a => ¬ bad ∧ grammar bytes a := by
  intro data offset a next hoffset
  unfold readUnless
  simp only [Raise.bind_ok, Raise.raiseIf_ok, exists_const, h data offset a next hoffset]
  constructor
  · rintro ⟨hgood, bytes, rest, hspelled, hdata⟩
    exact ⟨bytes, rest, ⟨hgood, hspelled⟩, hdata⟩
  · rintro ⟨bytes, rest, ⟨hgood, hspelled⟩, hdata⟩
    exact ⟨hgood, bytes, rest, hspelled, hdata⟩

theorem Spells.congr {read : ReadAt α} {grammar grammar' : List UInt8 → α → Prop}
    (h : Spells read grammar) (hg : ∀ bytes a, grammar bytes a ↔ grammar' bytes a) :
    Spells read grammar' := by
  intro data offset a next hoffset
  simp only [h data offset a next hoffset, hg]

/-! ## To the end -/

/-- A reader that moves on whenever it reads. -/
structure Reader (α : Type) where
  read : ReadAt α
  advances : ∀ {data offset a next}, read data offset = .ok (a, next) → offset < next

/-- `while offset < len(data)`: the values up to the end. -/
def Reader.all (r : Reader α) (data : List UInt8) (offset : ℕ) : Except String (List α) :=
  if _h : offset < data.length then
    match _hread : r.read data offset with
    | .error text => .error text
    | .ok (a, next) => do
      let as ← r.all data next
      return a :: as
  else .ok []
termination_by data.length - offset
decreasing_by
  have hlt := r.advances _hread
  omega

theorem Reader.all_iff (r : Reader α) {grammar : List UInt8 → α → Prop}
    (h : Spells r.read grammar) {data : List UInt8} {offset : ℕ} {as : List α}
    (hoffset : offset ≤ data.length) :
    r.all data offset = .ok as ↔ Spelling grammar (data.drop offset) as := by
  induction hn : data.length - offset using Nat.strongRecOn generalizing offset as with
  | ind n ih =>
    rw [Reader.all]
    split_ifs with hlt
    · split
      · next text hread =>
        constructor
        · intro he
          cases he
        · intro hspelled
          generalize hdata : data.drop offset = bytes at hspelled
          cases hspelled with
          | nil =>
            have hlength := congrArg List.length hdata
            rw [List.length_drop, List.length_nil] at hlength
            omega
          | @cons first rest a as hfirst _ =>
            have hok := (h data offset a _ hoffset).mpr ⟨first, rest, hfirst, hdata, rfl⟩
            rw [hread] at hok
            cases hok
      · next a next hread =>
        obtain ⟨_, hnext⟩ := h.le_length hoffset hread
        have hadvance := r.advances hread
        have hrest : ∀ as, r.all data next = .ok as ↔ Spelling grammar (data.drop next) as :=
          fun as => ih (data.length - next) (by omega) hnext rfl
        simp only [Raise.bind_ok, Raise.pure_ok, hrest]
        obtain ⟨first, rest, hfirst, hdata, rfl⟩ := (h data offset a next hoffset).mp hread
        constructor
        · rintro ⟨as', has', he⟩
          rw [← List.drop_drop, hdata, List.drop_left] at has'
          rw [hdata, ← he]
          exact .cons hfirst has'
        · intro hspelled
          generalize hall : data.drop offset = bytes at hspelled
          cases hspelled with
          | nil =>
            have hlength := congrArg List.length hall
            rw [List.length_drop, List.length_nil] at hlength
            omega
          | @cons first' rest' a' as' hfirst' hrest' =>
            -- what is read at an offset is one value, spelled in one way
            have hok := (h data offset a' _ hoffset).mpr ⟨first', rest', hfirst', hall, rfl⟩
            rw [hread] at hok
            obtain ⟨ha, hlength⟩ := Prod.mk.inj (Except.ok.inj hok)
            refine ⟨as', ?_, by rw [ha]⟩
            rw [hlength, ← List.drop_drop, hall, List.drop_left]
            exact hrest'
    · have hnil : data.drop offset = [] := List.drop_eq_nil_of_le (by omega)
      rw [hnil]
      constructor
      · intro he
        rw [← Except.ok.inj he]
        exact .nil
      · intro hspelled
        generalize hall : ([] : List UInt8) = bytes at hspelled
        cases hspelled with
        | nil => rfl
        | @cons first rest a as hfirst hrest =>
          -- nothing is read where there is nothing
          obtain ⟨rfl, rfl⟩ := List.append_eq_nil_iff.mp hall.symm
          have hok := (h data offset a _ hoffset).mpr ⟨[], [], hfirst, hnil, rfl⟩
          exact absurd (r.advances hok) (lt_irrefl offset)

end BuckosDistro.Lib
