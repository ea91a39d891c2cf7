import Compliance.Plan.Resolution
import Mathlib.Data.List.Induction

namespace Compliance

section

variable {α : Type} {key : α → String} {l : List α} {a b : α} {k : String}

def IsLast (key : α → String) (l : List α) (k : String) (a : α) : Prop :=
  ∃ before after, l = before ++ a :: after ∧ key a = k ∧ ∀ b ∈ after, key b ≠ k

theorem isLast_cons : IsLast key (b :: l) k a ↔ IsLast key l k a ∨ b = a ∧ key a = k ∧ ∀ c ∈ l, key c ≠ k := by
  constructor
  · rintro ⟨before, after, he, hk, hafter⟩
    cases before with
    | nil =>
      obtain ⟨rfl, rfl⟩ := List.cons.inj he
      exact .inr ⟨rfl, hk, hafter⟩
    | cons c before => exact .inl ⟨before, after, (List.cons.inj he).2, hk, hafter⟩
  · rintro (⟨before, after, rfl, hk, hafter⟩ | ⟨rfl, hk, hafter⟩)
    · exact ⟨b :: before, after, rfl, hk, hafter⟩
    · exact ⟨[], l, rfl, hk, hafter⟩

namespace Keyed

theorem find?_ofList_eq_some : (ofList l : Keyed key).find? k = some a ↔ IsLast key l k a := by
  rw [find?_ofList, List.find?_eq_some_iff_append]
  constructor
  · rintro ⟨hk, after, before, he, hafter⟩
    refine ⟨before.reverse, after.reverse, ?_, by simpa using hk, fun b hb => ?_⟩
    · rw [← List.reverse_reverse l, he, List.reverse_append, List.reverse_cons, List.append_assoc,
        List.singleton_append]
    · simpa using hafter b (List.mem_reverse.mp hb)
  · rintro ⟨before, after, rfl, hk, hafter⟩
    refine ⟨by simpa using hk, after.reverse, before.reverse, by simp, fun b hb => ?_⟩
    simpa using hafter b (List.mem_reverse.mp hb)

theorem find?_ofList_eq_none : (ofList l : Keyed key).find? k = none ↔ ∀ a ∈ l, key a ≠ k := by
  simp [find?_ofList]

theorem has_ofList : (ofList l : Keyed key).has k = true ↔ ∃ a ∈ l, key a = k := by
  rw [has, find?_ofList, List.find?_isSome]
  simp

theorem ofList_concat : (ofList (l ++ [a]) : Keyed key) = (ofList l).insert a := List.foldl_append

end Keyed

def unshadowed (key : α → String) : List α → List α
  | [] => []
  | a :: rest => if ∃ b ∈ rest, key b = key a then unshadowed key rest else a :: unshadowed key rest

theorem exists_mem_unshadowed : (∃ a ∈ unshadowed key l, key a = k) ↔ ∃ a ∈ l, key a = k := by
  induction l with
  | nil => rfl
  | cons a rest ih =>
    rw [unshadowed]
    split
    · rename_i h
      rw [ih]
      constructor
      · rintro ⟨b, hb, hk⟩
        exact ⟨b, List.mem_cons_of_mem a hb, hk⟩
      · rintro ⟨b, hb, rfl⟩
        rcases List.mem_cons.mp hb with rfl | hb
        · exact h
        · exact ⟨b, hb, rfl⟩
    · simp only [List.mem_cons, exists_eq_or_imp, ih]

theorem isLast_unshadowed : IsLast key (unshadowed key l) k a ↔ IsLast key l k a := by
  induction l with
  | nil => rfl
  | cons b rest ih =>
    have hnamed : (∃ c ∈ unshadowed key rest, key c = k) ↔ ∃ c ∈ rest, key c = k := exists_mem_unshadowed
    have hnames : (∀ c ∈ unshadowed key rest, key c ≠ k) ↔ ∀ c ∈ rest, key c ≠ k := by simpa using not_congr hnamed
    rw [unshadowed, isLast_cons]
    split
    · rename_i h
      rw [ih, or_iff_left]
      rintro ⟨rfl, rfl, hrest⟩
      obtain ⟨c, hc, hk⟩ := h
      exact hrest c hc hk
    · rw [isLast_cons, ih, hnames]

theorem Keyed.ofList_unshadowed : (ofList (unshadowed key l) : Keyed key) = ofList l :=
  ext_find? fun k => Option.ext fun a => by
    simp only [find?_ofList_eq_some, isLast_unshadowed]

theorem unshadowed_names_nodup : ((unshadowed key l).map key).Nodup := by
  induction l with
  | nil => exact List.nodup_nil
  | cons a rest ih =>
    rw [unshadowed]
    split
    · exact ih
    · rename_i h
      rw [List.map_cons, List.nodup_cons, List.mem_map, exists_mem_unshadowed]
      exact ⟨h, ih⟩

def recurring (key : α → String) (l : List α) : List α :=
  (l.zipIdx.filter fun e : α × Nat => ∃ b ∈ l.take e.2, key b = key e.1).map Prod.fst

theorem recurring_concat :
    recurring key (l ++ [a]) = recurring key l ++ if ∃ b ∈ l, key b = key a then [a] else [] := by
  have hbefore : ∀ e ∈ l.zipIdx, (l ++ [a]).take e.2 = l.take e.2 := fun e he =>
    List.take_append_of_le_length (Nat.le_of_lt (List.snd_lt_of_mem_zipIdx he))
  rw [recurring, List.zipIdx_append, List.filter_append, List.map_append]
  congr 1
  · exact congrArg (List.map Prod.fst) (List.filter_congr fun e he => by rw [hbefore e he])
  · by_cases h : ∃ b ∈ l, key b = key a <;> simp [h]

theorem repeats_concat (seen names : List String) :
    repeats seen (names ++ [k]) = repeats seen names ++ if k ∈ seen ∨ k ∈ names then [k] else [] := by
  induction names generalizing seen with
  | nil => by_cases h : k ∈ seen <;> simp [repeats, h]
  | cons n rest ih =>
    rw [List.cons_append, repeats, repeats]
    by_cases hn : n ∈ seen
    · have hmem : (k ∈ seen ∨ k ∈ n :: rest) ↔ k ∈ seen ∨ k ∈ rest := by grind
      simp only [hn, ↓reduceIte, ih, hmem, List.cons_append]
    · have hmem : (k ∈ seen ∨ k ∈ n :: rest) ↔ k ∈ n :: seen ∨ k ∈ rest := by grind
      simp only [hn, ↓reduceIte, ih, hmem]

theorem repeats_eq_recurring : repeats [] (l.map key) = (recurring key l).map key := by
  induction l using List.reverseRecOn with
  | nil => rfl
  | append_singleton l a ih =>
    rw [List.map_append, List.map_singleton, repeats_concat, ih, recurring_concat, List.map_append]
    by_cases h : ∃ b ∈ l, key b = key a <;> simp [h]

theorem repeats_eq_nil {names : List String} (h : names.Nodup) : repeats [] names = [] := by
  induction names using List.reverseRecOn with
  | nil => rfl
  | append_singleton names k ih =>
    obtain ⟨hnames, -, hk⟩ := List.nodup_append.mp h
    have hnew : ¬(k ∈ [] ∨ k ∈ names) := by
      rintro (hk' | hk')
      · exact List.not_mem_nil hk'
      · exact hk k hk' k (List.mem_singleton_self k) rfl
    rw [repeats_concat, ih hnames, if_neg hnew, List.nil_append]

structure Filing (α : Type) where
  table : NameMap α := Keyed.empty
  replaced : List String := []

namespace Filing

def add (key : α → String) (f : Filing α) (a : α) : Filing α where
  table := f.table.set (key a) a
  replaced := if f.table.has (key a) then f.replaced ++ [key a] else f.replaced

def ofList (key : α → String) (l : List α) : Filing α := l.foldl (add key) {}

theorem ofList_concat : ofList key (l ++ [a]) = (ofList key l).add key a := List.foldl_append

theorem get?_table : (ofList key l).table.get? k = (Keyed.ofList l : Keyed key).find? k := by
  induction l using List.reverseRecOn with
  | nil => rfl
  | append_singleton l a ih =>
    rw [ofList_concat, add, NameMap.get?_set, ih, Keyed.ofList_concat, Keyed.find?_insert]

theorem has_table : (ofList key l).table.has k = (Keyed.ofList l : Keyed key).has k := by
  rw [Keyed.has, Keyed.has, ← get?_table, NameMap.get?, Option.isSome_map]

theorem replaced_eq_repeats : (ofList key l).replaced = repeats [] (l.map key) := by
  induction l using List.reverseRecOn with
  | nil => rfl
  | append_singleton l a ih =>
    rw [ofList_concat, add, ih, List.map_append, List.map_singleton, repeats_concat]
    simp only [has_table, Keyed.has_ofList, List.mem_map, List.not_mem_nil, false_or]
    split <;> simp

end Filing

structure Tabulates (key : α → String) (l : List α) (t : Keyed key) : Prop where
  found : ∀ k a, t.find? k = some a ↔ IsLast key l k a
  missing : ∀ k, t.find? k = none ↔ ∀ a ∈ l, key a ≠ k
  filed : ∀ k, t.find? k = (Filing.ofList key l).table.get? k
  own : ∀ e ∈ (Filing.ofList key l).table.entries, key e.2 = e.1
  replaced : (Filing.ofList key l).replaced = (recurring key l).map key

theorem Keyed.ofList_tabulates (l : List α) : Tabulates key l (ofList l) where
  found k a := find?_ofList_eq_some
  missing k := find?_ofList_eq_none
  filed k := Filing.get?_table.symm
  own e he := by
    have hfind : (Filing.ofList key l).table.get? e.1 = some e.2 := NameMap.get?_eq_some.mpr (find?_of_mem he)
    rw [Filing.get?_table] at hfind
    exact key_of_find? hfind
  replaced := Filing.replaced_eq_repeats.trans repeats_eq_recurring

def warnings (kind : EntityKind) (key : α → Mrn) (l : List α) : List Event :=
  (recurring key l).map fun a => .repeatedEntry kind (key a)

theorem map_repeats_eq_warnings (kind : EntityKind) :
    (repeats [] (l.map key)).map (.repeatedEntry kind) = warnings kind key l := by
  rw [repeats_eq_recurring, List.map_map]
  rfl

end

namespace Declarations

variable (d : Declarations)

def unshadowed : Declarations where
  owner := d.owner
  policies := Compliance.unshadowed Policy.mrn d.policies
  frameworks := Compliance.unshadowed Framework.mrn d.frameworks
  maps := d.maps
  queries := Compliance.unshadowed Query.mrn d.queries
  riskFactors := Compliance.unshadowed RiskFactor.mrn d.riskFactors

theorem ofDeclarations_unshadowed : Bundle.ofDeclarations d.unshadowed = Bundle.ofDeclarations d := by
  simp only [Bundle.ofDeclarations, unshadowed, Keyed.ofList_unshadowed]

theorem events_eq_warnings : d.events =
    warnings .policy Policy.mrn d.policies ++ warnings .framework Framework.mrn d.frameworks ++
      warnings .query Query.mrn d.queries ++ warnings .riskFactor RiskFactor.mrn d.riskFactors := by
  simp only [events, map_repeats_eq_warnings]

theorem events_unshadowed : d.unshadowed.events = [] := by
  simp only [events, unshadowed, repeats_eq_nil unshadowed_names_nodup, List.map_nil, List.append_nil]

structure Indexed : Prop where
  policies : Tabulates Policy.mrn d.policies (Bundle.ofDeclarations d).policies
  frameworks : Tabulates Framework.mrn d.frameworks (Bundle.ofDeclarations d).frameworks
  queries : Tabulates Query.mrn d.queries (Bundle.ofDeclarations d).queries
  riskFactors : Tabulates RiskFactor.mrn d.riskFactors (Bundle.ofDeclarations d).riskFactors
  maps : (Bundle.ofDeclarations d).maps = d.maps
  warned : d.events =
    warnings .policy Policy.mrn d.policies ++ warnings .framework Framework.mrn d.frameworks ++
      warnings .query Query.mrn d.queries ++ warnings .riskFactor RiskFactor.mrn d.riskFactors
  unshadowed : d.unshadowed.events = [] ∧
    ∀ r, (Bundle.ofDeclarations d.unshadowed).run r = (Bundle.ofDeclarations d).run r

theorem indexed : d.Indexed where
  policies := Keyed.ofList_tabulates d.policies
  frameworks := Keyed.ofList_tabulates d.frameworks
  queries := Keyed.ofList_tabulates d.queries
  riskFactors := Keyed.ofList_tabulates d.riskFactors
  maps := rfl
  warned := d.events_eq_warnings
  unshadowed := ⟨d.events_unshadowed, fun r => by rw [d.ofDeclarations_unshadowed]⟩

end Declarations

end Compliance
