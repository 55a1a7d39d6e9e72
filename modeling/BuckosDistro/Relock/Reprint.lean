/-
  Variants as the lock records them (`tools/solve.py`, `emit_lockfile`).

  The lock does not keep the text of a `--source-variant` but prints the variant again. The
  print is read as the variant it is of, unless it names no consumer.
-/
import BuckosDistro.Solve.Variants

namespace BuckosDistro.Relock

open BuckosDistro.Lib BuckosDistro.Solve

/-- `"{}={}@{}:{}".format(k, v["source"], v["evr"], ",".join(v["consumers"]))` -/
def variantSpec (name : String) (variant : SourceVariant) : String :=
  name ++ "=" ++ variant.source ++ "@" ++ variant.evr ++ ":" ++ PyText.join "," variant.consumers

/-! ## What a parsed variant is made of -/

/-- A text that is a field of a specification: it is not empty, has no white space around it
    and none of the marks that end it. -/
structure FieldText (marks : List Char) (text : String) : Prop where
  ne : text ≠ ""
  stripped : PyText.strip text.toList = text.toList
  unmarked : ∀ c ∈ marks, c ∉ text.toList

/-- The fields of a variant, as a specification can state them. -/
structure Spellable (name : String) (variant : SourceVariant) : Prop where
  named : FieldText [':', '='] name
  sourced : FieldText [':', '@'] variant.source
  versioned : FieldText [':'] variant.evr
  own : name ≠ variant.source
  consumers : ∀ consumer ∈ variant.consumers, FieldText [','] consumer

/-- A variant that was parsed. -/
structure Parsed (name : String) (variant : SourceVariant) : Prop extends
    Spellable name variant where
  sorted : PyText.sortedSet variant.consumers = variant.consumers

section Parsed

variable {spec name : String} {variant : SourceVariant}

theorem fieldText_strip {marks text : List Char}
    (hne : String.ofList (PyText.strip text) ≠ "") (h : ∀ c ∈ marks, c ∉ text) :
    FieldText marks (String.ofList (PyText.strip text)) := by
  refine ⟨hne, ?_, fun c hc => ?_⟩
  · rw [String.toList_ofList, PyText.strip_strip]
  · rw [String.toList_ofList]
    exact PyText.notMem_strip (h c hc)

theorem fieldText_of_mem_commaParts {text : List Char} {part : String}
    (h : part ∈ commaParts text) : FieldText [','] part := by
  unfold commaParts at h
  obtain ⟨hmem, hne⟩ := List.mem_filter.mp h
  obtain ⟨piece, hpiece, rfl⟩ := List.mem_map.mp hmem
  refine fieldText_strip (by simpa using hne) fun c hc => ?_
  obtain rfl := List.mem_singleton.mp hc
  exact PyText.notMem_of_mem_splitOn hpiece

theorem sortedSet_sortedSet (names : List String) :
    PyText.sortedSet (PyText.sortedSet names) = PyText.sortedSet names :=
  PyText.sortedSet_congr fun _ => PyText.mem_sortedSet

theorem parsed_of_parseSourceVariant (h : parseSourceVariant spec = .ok (name, variant)) :
    Parsed name variant := by
  unfold parseSourceVariant at h
  dsimp only at h
  split_ifs at h with hparts hown
  obtain ⟨rfl, rfl⟩ := Prod.mk.inj (Except.ok.inj h)
  simp only [not_or] at hparts
  obtain ⟨hname, hsource, hevr, hconsumers⟩ := hparts
  -- The three fields lie before the first colon.
  have hhead := PyText.partition_fst ':' spec.toList
  generalize PyText.partition ':' spec.toList = cut at *
  have hn := PyText.partition_fst '=' cut.1
  have hparts := PyText.partition_sublist '=' cut.1
  generalize PyText.partition '=' cut.1 = fields at *
  have horigin : ':' ∉ fields.2.getD [] := by
    cases ho : fields.2 with
    | none => exact List.not_mem_nil
    | some origin => exact fun hc => hhead ((hparts.2 origin ho).subset hc)
  have hs := PyText.partition_fst '@' (fields.2.getD [])
  have hsparts := PyText.partition_sublist '@' (fields.2.getD [])
  generalize PyText.partition '@' (fields.2.getD []) = origin at *
  have hevrColon : ':' ∉ origin.2.getD [] := by
    cases ho : origin.2 with
    | none => exact List.not_mem_nil
    | some evr => exact fun hc => horigin ((hsparts.2 evr ho).subset hc)
  refine ⟨⟨fieldText_strip hname ?_, fieldText_strip hsource ?_, fieldText_strip hevr ?_, hown,
    fun consumer hc => ?_⟩, sortedSet_sortedSet _⟩
  · intro c hc
    rcases List.mem_cons.mp hc with rfl | hc
    · exact fun hmem => hhead (hparts.1.subset hmem)
    · rw [List.mem_singleton.mp hc]
      exact hn
  · intro c hc
    rcases List.mem_cons.mp hc with rfl | hc
    · exact fun hmem => horigin (hsparts.1.subset hmem)
    · rw [List.mem_singleton.mp hc]
      exact hs
  · intro c hc
    rw [List.mem_singleton.mp hc]
    exact hevrColon
  · exact fieldText_of_mem_commaParts (PyText.mem_sortedSet.mp hc)

/-! ## Read back -/

theorem commaParts_join {parts : List String} (h : ∀ part ∈ parts, FieldText [','] part) :
    commaParts (PyText.join "," parts).toList = parts := by
  cases parts with
  | nil => decide
  | cons part rest =>
    have hjoin : splitCommas (PyText.join "," (part :: rest)).toList =
        (part :: rest).map String.toList := by
      unfold splitCommas
      rw [PyText.toList_join]
      refine List.splitOn_intercalate ',' (fun piece hpiece => ?_) (by simp)
      obtain ⟨p, hp, rfl⟩ := List.mem_map.mp hpiece
      exact (h p hp).unmarked ',' (List.mem_singleton_self _)
    unfold commaParts
    rw [hjoin, List.map_map]
    have hself : ((part :: rest).map
        ((fun piece => String.ofList (PyText.strip piece)) ∘ String.toList)) = part :: rest := by
      conv => rhs; rw [← List.map_id (part :: rest)]
      refine List.map_congr_left fun p hp => ?_
      show String.ofList (PyText.strip p.toList) = p
      rw [(h p hp).stripped, String.ofList_toList]
    rw [hself, List.filter_eq_self]
    intro p hp
    exact decide_eq_true (h p hp).ne

/-- The text of a variant, cut at its marks. -/
theorem toList_variantSpec (name : String) (variant : SourceVariant) :
    (variantSpec name variant).toList =
      (name.toList ++ '=' :: (variant.source.toList ++ '@' :: variant.evr.toList)) ++
        ':' :: (PyText.join "," variant.consumers).toList := by
  simp [variantSpec]

/-- What can be stated is read back from its print, with the consumers in order, if there are
    any. -/
theorem parse_spellable (h : Spellable name variant) :
    parseSourceVariant (variantSpec name variant) =
      if variant.consumers = [] then
        .error ("--source-variant expects name=source@evr:consumer[,...], got " ++
          PyText.repr (variantSpec name variant))
      else .ok (name, { variant with consumers := PyText.sortedSet variant.consumers }) := by
  have hcolon :
      ':' ∉ name.toList ++ '=' :: (variant.source.toList ++ '@' :: variant.evr.toList) := by
    simp only [List.mem_append, List.mem_cons, not_or]
    exact ⟨h.named.unmarked ':' (by simp), by decide, h.sourced.unmarked ':' (by simp), by decide,
      h.versioned.unmarked ':' (by simp)⟩
  have hequals : '=' ∉ name.toList := h.named.unmarked '=' (by simp)
  have hat : '@' ∉ variant.source.toList := h.sourced.unmarked '@' (by simp)
  unfold parseSourceVariant
  rw [toList_variantSpec, PyText.partition_append hcolon]
  simp only [PyText.partition_append hequals, PyText.partition_append hat, Option.getD_some,
    h.named.stripped, h.sourced.stripped, h.versioned.stripped, String.ofList_toList,
    commaParts_join h.consumers]
  cases hc : variant.consumers with
  | nil =>
    have hblank : PyText.strip (PyText.join "," []).toList = [] := by decide
    rw [if_pos (Or.inr (Or.inr (Or.inr hblank))), if_pos rfl]
  | cons consumer rest =>
    have hblank : PyText.strip (PyText.join "," (consumer :: rest)).toList ≠ [] := by
      have hf := h.consumers consumer (by rw [hc]; exact List.mem_cons_self ..)
      cases hl : consumer.toList with
      | nil =>
        have hempty : consumer = "" := by rw [← String.ofList_toList (s := consumer), hl]
        exact absurd hempty hf.ne
      | cons c cs =>
        have hspace : PyText.isSpace c = false := by
          have hends := (PyText.strip_ends consumer.toList).1 c
          rw [hf.stripped, hl] at hends
          exact hends rfl
        refine PyText.strip_ne_nil ?_ hspace
        rw [PyText.toList_join, List.map_cons, hl]
        cases rest <;> simp [List.intercalate]
    have hparts : ¬ (name = "" ∨ variant.source = "" ∨ variant.evr = "" ∨
        PyText.strip (PyText.join "," (consumer :: rest)).toList = []) := by
      rintro (he | he | he | he)
      · exact h.named.ne he
      · exact h.sourced.ne he
      · exact h.versioned.ne he
      · exact hblank he
    rw [if_neg hparts, if_neg h.own, if_neg (List.cons_ne_nil _ _)]

/-- **A variant that names a consumer is read back from its print.** One that names none is
    refused. -/
theorem parse_variantSpec (h : Parsed name variant) :
    parseSourceVariant (variantSpec name variant) =
      if variant.consumers = [] then
        .error ("--source-variant expects name=source@evr:consumer[,...], got " ++
          PyText.repr (variantSpec name variant))
      else .ok (name, variant) := by
  rw [parse_spellable h.toSpellable, h.sorted]

end Parsed

end BuckosDistro.Relock
