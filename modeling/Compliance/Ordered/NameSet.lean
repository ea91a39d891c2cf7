import Compliance.Ordered.Keyed

namespace Compliance

abbrev NameSet := Keyed (fun n : String => n)

namespace NameSet

def erase (s : NameSet) (k : String) : NameSet :=
  ⟨s.entries.erase k, s.ordered.sublist List.erase_sublist⟩

def contains (s : NameSet) (k : String) : Bool := s.entries.contains k

instance : Membership String NameSet := ⟨fun s k => k ∈ s.entries⟩

instance (k : String) (s : NameSet) : Decidable (k ∈ s) :=
  inferInstanceAs (Decidable (k ∈ s.entries))

theorem mem_entries {k : String} {s : NameSet} : k ∈ s ↔ k ∈ s.entries := Iff.rfl

@[simp] theorem contains_iff {k : String} {s : NameSet} : s.contains k = true ↔ k ∈ s := by
  simp [contains, mem_entries]

theorem mem_place {k x : String} {l : List String} :
    x ∈ Keyed.place (fun n => n) k l ↔ x = k ∨ x ∈ l := by
  induction l with
  | nil => simp [Keyed.place]
  | cons n rest ih =>
    simp only [Keyed.place]
    split
    · simp
    · split
      · simp only [List.mem_cons, ih]
        constructor
        · rintro (h | h | h) <;> simp [h]
        · rintro (h | h | h) <;> simp [h]
      · rename_i h₁ h₂
        have hk : k = n := String.le_antisymm (String.not_lt.1 h₂) (String.not_lt.1 h₁)
        simp [hk]

@[simp] theorem not_mem_empty {k : String} : ¬ k ∈ (Keyed.empty : NameSet) := by
  simp [mem_entries, Keyed.empty]

@[simp] theorem mem_insert {k x : String} {s : NameSet} : x ∈ Keyed.insert s k ↔ x = k ∨ x ∈ s :=
  mem_place

@[simp] theorem mem_insertAll {x : String} (s : NameSet) {l : List String} :
    x ∈ Keyed.insertAll s l ↔ x ∈ s ∨ x ∈ l := by
  induction l generalizing s with
  | nil => simp [Keyed.insertAll]
  | cons k rest ih =>
    have := ih (Keyed.insert s k)
    simp only [Keyed.insertAll] at this
    simp only [Keyed.insertAll, List.foldl_cons, this, mem_insert, List.mem_cons]
    constructor
    · rintro ((h | h) | h) <;> simp [h]
    · rintro (h | h | h) <;> simp [h]

@[simp] theorem mem_ofList {x : String} {l : List String} :
    x ∈ (Keyed.ofList l : NameSet) ↔ x ∈ l := by
  simp [Keyed.ofList]

@[simp] theorem mem_filter {x : String} {p : String → Bool} {s : NameSet} :
    x ∈ Keyed.filter p s ↔ x ∈ s ∧ p x = true := by
  simp [mem_entries, Keyed.filter]

theorem isEmpty_of_mem {k : String} {s : NameSet} (h : k ∈ s) : s.isEmpty = false := by
  simp only [Keyed.isEmpty, List.isEmpty_eq_false_iff]
  exact List.ne_nil_of_mem (mem_entries.mp h)

theorem nodup (s : NameSet) : s.entries.Nodup := by simpa [Keyed.keys] using s.keys_nodup

@[simp] theorem mem_erase {k x : String} {s : NameSet} : x ∈ s.erase k ↔ x ≠ k ∧ x ∈ s := by
  simp [mem_entries, erase, s.nodup.mem_erase_iff]

end NameSet

end Compliance
