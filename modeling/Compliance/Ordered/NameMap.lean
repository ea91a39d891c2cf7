import Compliance.Ordered.Keyed

namespace Compliance

abbrev NameMap (α : Type) := Keyed (Prod.fst : String × α → String)

namespace NameMap

variable {α β : Type}

def get? (m : NameMap α) (k : String) : Option α := (m.find? k).map Prod.snd

def set (m : NameMap α) (k : String) (v : α) : NameMap α := Keyed.insert m (k, v)

def setNew (m : NameMap α) (k : String) (v : α) : NameMap α := if m.has k then m else m.set k v

def values (m : NameMap α) : List α := m.entries.map Prod.snd

def mapValues (f : α → β) (m : NameMap α) : NameMap β where
  entries := m.entries.map fun e => (e.1, f e.2)
  ordered := List.pairwise_map.2 m.ordered

@[simp] theorem get?_set {m : NameMap α} {k n : String} {v : α} :
    (m.set k v).get? n = if k = n then some v else m.get? n := by
  by_cases h : k = n <;> simp [get?, set, h]

@[simp] theorem get?_mapValues {f : α → β} {m : NameMap α} {k : String} :
    get? (m.mapValues f) k = (m.get? k).map f := by
  simp only [get?, Keyed.find?, mapValues, List.find?_map, Function.comp_def, Option.map_map]

theorem ext_get? {m m' : NameMap α} (h : ∀ k, m.get? k = m'.get? k) : m = m' := by
  have find : ∀ (m : NameMap α) k, m.find? k = (m.get? k).map (k, ·) := by
    intro m k
    cases hk : m.find? k with
    | none => simp [get?, hk]
    | some x =>
      obtain rfl := Keyed.key_of_find? hk
      simp [get?, hk]
  exact Keyed.ext_find? fun k => by rw [find, find, h]

@[simp] theorem mapValues_id {m : NameMap α} : m.mapValues (fun v => v) = m := Keyed.ext (List.map_id' m.entries)

theorem mapValues_mapValues {γ : Type} {f : α → β} {g : β → γ} {m : NameMap α} :
    mapValues g (m.mapValues f) = m.mapValues fun v => g (f v) :=
  ext_get? fun n => by simp [Function.comp_def]

theorem mapValues_set {f : α → β} {m : NameMap α} {k : String} {v : α} :
    (m.set k v).mapValues f = (m.mapValues f).set k (f v) :=
  ext_get? fun n => by by_cases h : k = n <;> simp [h]

theorem get?_eq_some {m : NameMap α} {k : String} {v : α} : m.get? k = some v ↔ m.find? k = some (k, v) := by
  unfold get?
  constructor
  · intro h
    obtain ⟨x, hx, rfl⟩ := Option.map_eq_some_iff.mp h
    obtain rfl := Keyed.key_of_find? hx
    exact hx
  · intro h
    rw [h, Option.map_some]

theorem mem_keys_iff {m : NameMap α} {k : String} : k ∈ m.keys ↔ ∃ v, m.get? k = some v := by
  rw [Keyed.mem_keys_iff]
  constructor
  · rintro ⟨x, hx⟩
    exact ⟨x.2, by rw [get?, hx, Option.map_some]⟩
  · rintro ⟨v, hv⟩
    exact ⟨_, get?_eq_some.mp hv⟩

theorem mem_values_iff {m : NameMap α} {v : α} : v ∈ m.values ↔ ∃ k, m.get? k = some v := by
  simp only [values, List.mem_map]
  constructor
  · rintro ⟨x, hx, rfl⟩
    exact ⟨x.1, get?_eq_some.mpr (Keyed.find?_of_mem hx)⟩
  · rintro ⟨k, hk⟩
    exact ⟨_, Keyed.mem_of_find? (get?_eq_some.mp hk), rfl⟩

theorem get?_ofList (l : List (String × α)) (k : String) :
    get? (Keyed.ofList l) k = ((l.filter (·.1 == k)).map Prod.snd).getLast? := by
  rw [get?, Keyed.find?_ofList, ← List.head?_filter, List.filter_reverse, List.head?_reverse, List.getLast?_map]

end NameMap

end Compliance
