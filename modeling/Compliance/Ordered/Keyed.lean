
namespace Compliance

structure Keyed {α : Type} (key : α → String) where
  entries : List α := []
  ordered : entries.Pairwise (fun a b => key a < key b) := by simp

namespace Keyed

variable {α : Type} {key : α → String}

@[ext] theorem ext {s t : Keyed key} (h : s.entries = t.entries) : s = t := by
  cases s; cases t; cases h; rfl

instance [DecidableEq α] : DecidableEq (Keyed key) := fun s t =>
  decidable_of_iff (s.entries = t.entries) ⟨ext, fun h => h ▸ rfl⟩

def empty : Keyed key := {}

instance : EmptyCollection (Keyed key) := ⟨empty⟩
instance : Inhabited (Keyed key) := ⟨empty⟩

def place (key : α → String) (a : α) : List α → List α
  | [] => [a]
  | b :: rest =>
    if key a < key b then a :: b :: rest
    else if key b < key a then b :: place key a rest
    else a :: rest

theorem mem_of_mem_place {a x : α} {l : List α} (h : x ∈ place key a l) : x = a ∨ x ∈ l := by
  induction l with
  | nil => simpa [place] using h
  | cons b rest ih =>
    simp only [place] at h
    split at h
    · simpa using h
    · split at h
      · rcases List.mem_cons.1 h with h | h
        · simp [h]
        · rcases ih h with h | h <;> simp [h]
      · rcases List.mem_cons.1 h with h | h <;> simp [h]

theorem place_ordered {a : α} {l : List α} (h : l.Pairwise (fun a b => key a < key b)) :
    (place key a l).Pairwise (fun a b => key a < key b) := by
  induction l with
  | nil => simp [place]
  | cons b rest ih =>
    obtain ⟨hb, hr⟩ := List.pairwise_cons.1 h
    simp only [place]
    split
    · rename_i hk
      refine List.pairwise_cons.2 ⟨fun x hx => ?_, h⟩
      rcases List.mem_cons.1 hx with rfl | hx
      · exact hk
      · exact String.lt_trans hk (hb x hx)
    · split
      · rename_i hk
        refine List.pairwise_cons.2 ⟨fun x hx => ?_, ih hr⟩
        rcases mem_of_mem_place hx with rfl | hx
        · exact hk
        · exact hb x hx
      · rename_i h₁ h₂
        have hk : key a = key b := String.le_antisymm (String.not_lt.1 h₂) (String.not_lt.1 h₁)
        exact List.pairwise_cons.2 ⟨fun x hx => hk ▸ hb x hx, hr⟩

def insert (s : Keyed key) (a : α) : Keyed key := ⟨place key a s.entries, place_ordered s.ordered⟩

def find? (s : Keyed key) (k : String) : Option α := s.entries.find? (key · == k)

def has (s : Keyed key) (k : String) : Bool := (s.find? k).isSome

def size (s : Keyed key) : Nat := s.entries.length

def isEmpty (s : Keyed key) : Bool := s.entries.isEmpty

def keys (s : Keyed key) : List String := s.entries.map key

def filter (p : α → Bool) (s : Keyed key) : Keyed key :=
  ⟨s.entries.filter p, s.ordered.sublist List.filter_sublist⟩

def map (f : α → α) (hf : ∀ a, key (f a) = key a) (s : Keyed key) : Keyed key :=
  ⟨s.entries.map f, List.pairwise_map.2 (s.ordered.imp fun h => by rwa [hf, hf])⟩

def insertAll (s : Keyed key) (l : List α) : Keyed key := l.foldl insert s

def ofList (l : List α) : Keyed key := empty.insertAll l

theorem keys_ordered (s : Keyed key) : s.keys.Pairwise (· < ·) :=
  List.pairwise_map.2 s.ordered

theorem keys_nodup (s : Keyed key) : s.keys.Nodup :=
  s.keys_ordered.imp fun h => String.ne_of_lt h

theorem find?_map {f : α → α} {hf : ∀ a, key (f a) = key a} {s : Keyed key} {k : String} :
    (s.map f hf).find? k = (s.find? k).map f := by
  have hk : (fun a => key a == k) ∘ f = fun a => key a == k := funext fun a => by simp [hf]
  rw [find?, map, List.find?_map, hk, find?]

@[simp] theorem find?_empty {k : String} : (empty : Keyed key).find? k = none := rfl

theorem find?_place {a : α} {l : List α} {k : String} :
    (place key a l).find? (key · == k) = if key a = k then some a else l.find? (key · == k) := by
  induction l with
  | nil => by_cases h : key a = k <;> simp [place, h]
  | cons b rest ih =>
    simp only [place]
    split
    · by_cases h : key a = k <;> simp [List.find?_cons, h]
    · split
      · rename_i hlt
        by_cases hb : key b = k
        · have : key a ≠ k := fun h => String.lt_irrefl k (by rw [hb, h] at hlt; exact hlt)
          simp [hb, this]
        · simp [hb, ih]
      · rename_i h₁ h₂
        have hk : key a = key b := String.le_antisymm (String.not_lt.1 h₂) (String.not_lt.1 h₁)
        by_cases h : key b = k <;> simp [hk, h]

@[simp] theorem find?_insert {s : Keyed key} {a : α} {k : String} :
    (s.insert a).find? k = if key a = k then some a else s.find? k := find?_place

theorem find?_insertAll (s : Keyed key) (l : List α) (k : String) :
    (s.insertAll l).find? k = (l.reverse.find? (key · == k)).or (s.find? k) := by
  induction l generalizing s with
  | nil => simp [insertAll]
  | cons a rest ih =>
    have := ih (s.insert a)
    simp only [insertAll] at this
    simp only [insertAll, List.foldl_cons, this, find?_insert, List.reverse_cons, List.find?_append]
    by_cases h : key a = k <;> simp [h]

theorem find?_ofList {l : List α} {k : String} :
    (ofList l : Keyed key).find? k = l.reverse.find? (key · == k) := by
  simp [ofList, find?_insertAll]

theorem mem_of_find? {s : Keyed key} {k : String} {a : α} (h : s.find? k = some a) :
    a ∈ s.entries := List.mem_of_find?_eq_some h

theorem key_of_find? {s : Keyed key} {k : String} {a : α} (h : s.find? k = some a) : key a = k := by
  simpa using List.find?_some h

theorem find?_of_mem {s : Keyed key} {a : α} (h : a ∈ s.entries) : s.find? (key a) = some a := by
  have key_inj : ∀ {l : List α}, l.Pairwise (fun a b => key a < key b) → a ∈ l →
      l.find? (key · == key a) = some a := by
    intro l hl ha
    induction l with
    | nil => simp at ha
    | cons b rest ih =>
      obtain ⟨hb, hr⟩ := List.pairwise_cons.1 hl
      rcases List.mem_cons.1 ha with rfl | ha
      · simp
      · have : key b ≠ key a := String.ne_of_lt (hb a ha)
        simp [this, ih hr ha]
  exact key_inj s.ordered h

theorem mem_keys_iff {s : Keyed key} {k : String} : k ∈ s.keys ↔ ∃ a, s.find? k = some a := by
  simp only [keys, List.mem_map]
  constructor
  · rintro ⟨a, ha, rfl⟩
    exact ⟨a, find?_of_mem ha⟩
  · rintro ⟨a, ha⟩
    exact ⟨a, mem_of_find? ha, key_of_find? ha⟩

theorem entries_nodup (s : Keyed key) : s.entries.Nodup := by
  refine s.ordered.imp ?_
  rintro a _ h rfl
  exact String.lt_irrefl _ h

theorem ext_mem {s t : Keyed key} (h : ∀ a, a ∈ s.entries ↔ a ∈ t.entries) : s = t := by
  have hperm := (List.perm_ext_iff_of_nodup s.entries_nodup t.entries_nodup).2 h
  refine ext (List.Perm.eq_of_pairwise (fun a b _ _ hab hba => ?_) s.ordered t.ordered hperm)
  exact absurd (String.lt_trans hab hba) (String.lt_irrefl _)

theorem ext_find? {s t : Keyed key} (h : ∀ k, s.find? k = t.find? k) : s = t := by
  apply ext_mem
  intro a
  constructor
  · exact fun ha => mem_of_find? ((h _).symm.trans (find?_of_mem ha))
  · exact fun ha => mem_of_find? ((h _).trans (find?_of_mem ha))

theorem place_perm {a : α} {l : List α} (h : ∀ b ∈ l, key b ≠ key a) : (place key a l).Perm (a :: l) := by
  induction l with
  | nil => exact .refl _
  | cons b rest ih =>
    simp only [place]
    split
    · exact .refl _
    · split
      · exact ((ih fun x hx => h x (by simp [hx])).cons b).trans (.swap a b rest)
      · rename_i h₁ h₂
        exact absurd (String.le_antisymm (String.not_lt.1 h₁) (String.not_lt.1 h₂)) (h b (by simp))

theorem place_of_forall_lt {a : α} {l : List α} (h : ∀ b ∈ l, key b < key a) :
    place key a l = l ++ [a] := by
  induction l with
  | nil => rfl
  | cons b rest ih =>
    have hb : key b < key a := h b (by simp)
    have hn : ¬ key a < key b := fun hk => String.lt_irrefl _ (String.lt_trans hb hk)
    simp [place, hb, hn, ih fun x hx => h x (by simp [hx])]

theorem entries_insertAll (s : Keyed key) {l : List α}
    (h : (s.entries ++ l).Pairwise (fun a b => key a < key b)) :
    (s.insertAll l).entries = s.entries ++ l := by
  induction l generalizing s with
  | nil => simp [insertAll]
  | cons a rest ih =>
    have hs : (s.insert a).entries = s.entries ++ [a] :=
      place_of_forall_lt fun b hb => (List.pairwise_append.1 h).2.2 b hb a (by simp)
    have := ih (s.insert a) (by simpa [hs] using h)
    simp only [insertAll] at this
    simp [insertAll, this, hs]

theorem ofList_entries (s : Keyed key) : ofList s.entries = s :=
  ext (by simpa [ofList, empty] using entries_insertAll empty (by simpa [empty] using s.ordered))

end Keyed

end Compliance
