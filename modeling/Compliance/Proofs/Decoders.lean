import Compliance.Json.Decoding
import Mathlib.Data.List.Pairwise
import Mathlib.Tactic.Common

namespace Compliance.Json

variable {α β γ : Type}

def Reads (item : Decoder α) (v : Value) (a : α) : Prop := item (.ofValue v) = .ok a

theorem Reads.map {item : Decoder α} {v : Value} {a : α} (h : Reads item v a) (f : α → β) :
    Reads (fun d => (item d).map f) v (f a) := by
  rw [Reads, h]
  rfl

theorem reads_value (v : Value) : Reads decodeValue v v := by
  rw [Reads, decodeValue, Document.toValue_ofValue]
  rfl

theorem reads_text (s : String) : Reads decodeText (.string s) s := rfl

theorem reads_bool (b : Bool) : Reads decodeBool (.bool b) b := rfl

theorem reads_integer {low high n : Int} {wanted : String} (h : low ≤ n ∧ n < high) :
    Reads (decodeInteger low high wanted) (.int n) n := if_pos h

theorem reads_uint32 (n : UInt32) : Reads decodeUInt32 (.int n.toNat) n := by
  have hlt : (n.toNat : Int) < UInt32.size := Int.ofNat_lt.mpr n.toNat_lt_size
  have hread : Reads (decodeInteger 0 UInt32.size "u32") (.int n.toNat) n.toNat :=
    reads_integer ⟨Int.natCast_nonneg _, hlt⟩
  have hword := hread.map fun n => UInt32.ofNat n.toNat
  rwa [Int.toNat_natCast, UInt32.ofNat_toNat] at hword

theorem reads_uint64 (n : UInt64) : Reads decodeUInt64 (.int n.toNat) n := by
  have hlt : (n.toNat : Int) < UInt64.size := Int.ofNat_lt.mpr n.toNat_lt_size
  have hread : Reads (decodeInteger 0 UInt64.size "u64") (.int n.toNat) n.toNat :=
    reads_integer ⟨Int.natCast_nonneg _, hlt⟩
  have hword := hread.map fun n => UInt64.ofNat n.toNat
  rwa [Int.toNat_natCast, UInt64.ofNat_toNat] at hword

theorem reads_word [Vocabulary α] {a : α} (h : Vocabulary.find? (word a) = some a) :
    Reads (decodeWord α) (.string (word a)) a := by
  change findWord α (word a) = .ok a
  rw [findWord, h]

theorem reads_nullable_null (item : Decoder α) : Reads (decodeNullable item) .null none := rfl

theorem Reads.nullable {item : Decoder α} {v : Value} {a : α} (h : Reads item v a) (hv : v ≠ .null) :
    Reads (decodeNullable item) v (some a) := by
  cases v with
  | null => exact absurd rfl hv
  | _ => exact congrArg (Except.map some) h

theorem reads_list {item : Decoder α} {write : α → Value} {l : List α} (h : ∀ a ∈ l, Reads item (write a) a) :
    Reads (decodeList item) (.array (l.map write)) l := by
  have hitems : (Document.ofItems (l.map write)).mapM item = .ok l := by
    induction l with
    | nil => rfl
    | cons a rest ih =>
      have hfirst : item (.ofValue (write a)) = .ok a := h a List.mem_cons_self
      rw [List.map_cons, Document.ofItems, List.mapM_cons, hfirst, ih fun a ha => h a (List.mem_cons_of_mem _ ha)]
      rfl
  rw [Reads, Document.ofValue, decodeList, hitems]
  rfl

theorem decodeMap_object (item : Decoder α) (members : List (Key × Document)) :
    decodeMap item (.object members none) = members.foldlM (fun m e => do
      let k ← decodeKey e.1
      let a ← item e.2
      return NameMap.set m k a) Keyed.empty := bind_pure _

theorem reads_map {item : Decoder β} {f : α → Value} {g : α → β} {m : NameMap α}
    (h : ∀ a ∈ m.values, Reads item (f a) (g a)) : Reads (decodeMap item) (.ofMap f m) (m.mapValues g) := by
  have hmembers : ∀ (ms : List (String × α)) (start : NameMap β), (∀ e ∈ ms, Reads item (f e.2) (g e.2)) →
      (Document.ofMembers (ms.map fun e => (e.1, f e.2))).foldlM (fun m e => do
        let k ← decodeKey e.1
        let a ← item e.2
        return NameMap.set m k a) start = .ok (Keyed.insertAll start (ms.map fun e => (e.1, g e.2))) := by
    intro ms
    induction ms with
    | nil => exact fun start _ => rfl
    | cons e rest ih =>
      intro start hms
      have hfirst : item (.ofValue (f e.2)) = .ok (g e.2) := hms e List.mem_cons_self
      rw [List.map_cons, Document.ofMembers, List.foldlM_cons]
      simp only [hfirst]
      exact ih _ fun e he => hms e (List.mem_cons_of_mem _ he)
  have hall := hmembers m.entries Keyed.empty fun e he => h e.2 (List.mem_map_of_mem he)
  have hresult : Keyed.insertAll Keyed.empty (m.entries.map fun e => (e.1, g e.2)) = m.mapValues g :=
    Keyed.ofList_entries (m.mapValues g)
  rw [Reads, Value.ofMap, Document.ofValue, decodeMap_object, hall, hresult]

theorem sortedMembers_perm {ms : List (String × Value)} (h : (ms.map Prod.fst).Nodup) :
    (Value.sortedMembers ms).entries.Perm (ms.map fun e => (e.1, e.2.sorted)) := by
  induction ms with
  | nil => exact .refl _
  | cons e rest ih =>
    obtain ⟨hfirst, hrest⟩ := List.nodup_cons.mp h
    have hperm := ih hrest
    have hne : ∀ e' ∈ (Value.sortedMembers rest).entries, e'.1 ≠ e.1 := by
      rintro e' he' heq
      obtain ⟨x, hx, rfl⟩ := List.mem_map.mp (hperm.mem_iff.mp he')
      exact hfirst (List.mem_map.mpr ⟨x, hx, heq⟩)
    have hnew : (Value.sortedMembers rest).has e.1 = false := by
      rw [Keyed.has, Option.isSome_eq_false_iff, Option.isNone_iff_eq_none, Keyed.find?, List.find?_eq_none]
      exact fun e' he' => by simpa using hne e' he'
    rw [Value.sortedMembers, NameMap.setNew, if_neg (by simp [hnew])]
    exact (Keyed.place_perm (a := (e.1, e.2.sorted)) hne).trans (hperm.cons _)

theorem sortedMembers_entries (m : NameMap Value) : Value.sortedMembers m.entries = m.mapValues Value.sorted :=
  Keyed.ext_mem fun _ => (sortedMembers_perm m.keys_nodup).mem_iff

mutual

theorem sorted_sorted (v : Value) : v.sorted.sorted = v.sorted := by
  cases v with
  | array items => simp only [Value.sorted, sortedItems_sortedItems items]
  | object members => simp only [Value.sorted, sortedMembers_entries, mapValues_sortedMembers members]
  | _ => rfl

theorem sortedItems_sortedItems (l : List Value) : Value.sortedItems (Value.sortedItems l) = Value.sortedItems l := by
  cases l with
  | nil => rfl
  | cons v rest => simp only [Value.sortedItems, sorted_sorted v, sortedItems_sortedItems rest]

theorem mapValues_sortedMembers (ms : List (String × Value)) :
    (Value.sortedMembers ms).mapValues Value.sorted = Value.sortedMembers ms := by
  cases ms with
  | nil => rfl
  | cons e rest =>
    obtain ⟨k, v⟩ := e
    have hv : v.sorted.sorted = v.sorted := sorted_sorted v
    have hrest : (Value.sortedMembers rest).mapValues Value.sorted = Value.sortedMembers rest :=
      mapValues_sortedMembers rest
    rw [Value.sortedMembers, NameMap.setNew]
    split
    · exact hrest
    · rw [NameMap.mapValues_set, hv, hrest]

end

theorem sorted_ofMap (f : α → Value) (m : NameMap α) : (Value.ofMap f m).sorted = .ofMap (fun a => (f a).sorted) m := by
  have hentries : Value.sortedMembers (m.entries.map fun e => (e.1, f e.2)) = (m.mapValues f).mapValues Value.sorted :=
    sortedMembers_entries (m.mapValues f)
  rw [Value.ofMap, Value.sorted, hentries, NameMap.mapValues_mapValues]
  rfl

theorem sorted_strings (l : List String) : (Value.strings l).sorted = .strings l := by
  have hitems : Value.sortedItems (l.map .string) = l.map .string := by
    induction l with
    | nil => rfl
    | cons s rest ih => simp only [List.map_cons, Value.sortedItems, Value.sorted, ih]
  rw [Value.strings, Value.sorted, hitems]

theorem exists_of_bind_eq_ok {ε γ δ : Type} {x : Except ε γ} {f : γ → Except ε δ} {y : δ} (h : x >>= f = .ok y) :
    ∃ z, x = .ok z ∧ f z = .ok y := by
  cases x with
  | error e => cases h
  | ok z => exact ⟨z, rfl, h⟩

theorem exists_of_map_eq_ok {ε δ ζ : Type} {x : Except ε δ} {f : δ → ζ} {y : ζ} (h : x.map f = .ok y) :
    ∃ z, x = .ok z ∧ f z = y := by
  cases x with
  | error e => cases h
  | ok z => exact ⟨z, rfl, Except.ok.inj h⟩

namespace Field

variable {f g : Field α}

theorem read_of {item : Decoder β} {v : Value} {b : β} (h : Reads item v b) (name : String) (put : β → α → α) (a : α) :
    (Field.of name item put).read (.ofValue v) a = .ok (put b a) := h.map fun b => put b a

theorem read_must {item : Decoder β} {v : Value} {b : β} (h : Reads item v b) (name : String) (put : β → α → α)
    (a : α) : (Field.must name item put).read (.ofValue v) a = .ok (put b a) := read_of h name put a

def Commutes (f g : Field α) : Prop := ∀ d d' a c,
  (∃ b, f.read d a = .ok b ∧ g.read d' b = .ok c) ↔ ∃ b, g.read d' a = .ok b ∧ f.read d b = .ok c

instance : Std.Symm (Commutes (α := α)) where
  symm _ _ h d d' a c := (h d' d a c).symm

@[simp] theorem commutes_must_left {name : String} {item : Decoder β} {put : β → α → α} :
    (Field.must name item put).Commutes g ↔ (Field.of name item put).Commutes g := Iff.rfl

@[simp] theorem commutes_must_right {name : String} {item : Decoder β} {put : β → α → α} :
    f.Commutes (Field.must name item put) ↔ f.Commutes (Field.of name item put) := Iff.rfl

@[simp] theorem commutes_of_of {name name' : String} {item : Decoder β} {item' : Decoder γ} {put : β → α → α}
    {put' : γ → α → α} (h : ∀ b b' a, put b (put' b' a) = put' b' (put b a)) :
    (Field.of name item put).Commutes (Field.of name' item' put') := by
  intro d d' a c
  simp only [Field.of]
  generalize item d = x
  generalize item' d' = y
  cases x with
  | error e => cases y <;> simp [Except.map]
  | ok b => cases y <;> simp [Except.map, h]

end Field

namespace Record

variable {r : Record α} {seen seen' : List String} {ms ms' : List (String × Value)} {a b c : α} {d : Document}

def Commutes (r : Record α) : Prop := r.fields.Pairwise Field.Commutes

/-- What some members make of a record in which some fields are set already: each sets one field, and none of those
that must be there is left out. -/
inductive Fills (r : Record α) : List String → α → List (String × Value) → α → Prop
  | done {seen : List String} {a : α} (h : ∀ f ∈ r.fields, f.required = true → f.name ∈ seen) : Fills r seen a [] a
  | field {seen : List String} {a b c : α} {k : String} {v : Value} {f : Field α} {rest : List (String × Value)}
    (hf : r.fields.find? (·.name == k) = some f) (hk : k ∉ seen) (hread : f.read (.ofValue v) a = .ok b)
    (h : Fills r (k :: seen) b rest c) : Fills r seen a ((k, v) :: rest) c

theorem Fills.readMembers (h : r.Fills seen a ms c) : ∃ seen',
    r.readMembers seen a (Document.ofMembers ms) = .ok (seen', c) ∧
      ∀ f ∈ r.fields, f.required = true → f.name ∈ seen' := by
  induction h with
  | done h => exact ⟨_, rfl, h⟩
  | field hf hk hread _ ih =>
    obtain ⟨seen', hrest, hrequired⟩ := ih
    refine ⟨seen', ?_, hrequired⟩
    rw [Document.ofMembers, Record.readMembers]
    simp only [decodeKey, bind, Except.bind, hf, hk, hread, ↓reduceIte]
    exact hrest

theorem Fills.reads (h : r.Fills [] r.blank ms c) : Reads r.decode (.object ms) c := by
  obtain ⟨seen, hmembers, hrequired⟩ := h.readMembers
  have hall : r.fields.find? (fun f => f.required && !seen.contains f.name) = none := by
    rw [List.find?_eq_none]
    intro f hf
    by_cases hreq : f.required = true
    · simp [hrequired f hf hreq]
    · simp [hreq]
  rw [Reads, Document.ofValue, decode, hmembers]
  simp only [bind, Except.bind, atStop, hall]
  rfl

theorem Fills.nodup (h : r.Fills seen a ms c) : (ms.map Prod.fst).Nodup ∧ ∀ e ∈ ms, e.1 ∉ seen := by
  induction h with
  | done => simp
  | field _ hk _ _ ih =>
    obtain ⟨hnodup, hnew⟩ := ih
    refine ⟨List.nodup_cons.mpr ⟨fun hmem => ?_, hnodup⟩, fun e he => ?_⟩
    · obtain ⟨e, he, rfl⟩ := List.mem_map.mp hmem
      exact hnew e he List.mem_cons_self
    · rcases List.mem_cons.mp he with rfl | he
      · exact hk
      · exact fun hmem => hnew e he (List.mem_cons_of_mem _ hmem)

theorem Fills.congr_seen (h : r.Fills seen a ms c) (hseen : ∀ k, k ∈ seen ↔ k ∈ seen') : r.Fills seen' a ms c := by
  induction h generalizing seen' with
  | done h => exact .done fun f hf hreq => (hseen f.name).mp (h f hf hreq)
  | field hf hk hread _ ih =>
    exact .field hf (mt (hseen _).mpr hk) hread (ih fun k => by simp only [List.mem_cons, hseen k])

theorem Fills.perm (hr : r.Commutes) (hms : ms.Perm ms') (h : r.Fills seen a ms c) : r.Fills seen a ms' c := by
  induction hms generalizing seen a with
  | nil => exact h
  | cons e _ ih =>
    cases h with
    | field hf hk hread hrest => exact .field hf hk hread (ih hrest)
  | swap e e' rest =>
    -- The two members have different names, as no field is set twice, and so belong to different fields.
    cases h with
    | @field _ _ _ _ k' _ f' _ hf' hk' hread' hrest =>
      cases hrest with
      | @field _ _ _ _ k _ f _ hf hk hread hrest =>
        have hne : k' ≠ k := fun heq => hk (heq ▸ List.mem_cons_self)
        have hname' : f'.name = k' := by simpa using List.find?_some hf'
        have hname : f.name = k := by simpa using List.find?_some hf
        have hfields : f' ≠ f := fun heq => hne (hname' ▸ hname ▸ congrArg Field.name heq)
        have hcomm := hr.forall (List.mem_of_find?_eq_some hf') (List.mem_of_find?_eq_some hf) hfields
        obtain ⟨b, hfirst, hsecond⟩ := (hcomm _ _ _ _).mp ⟨_, hread', hread⟩
        refine .field hf (fun hmem => hk (List.mem_cons_of_mem _ hmem)) hfirst (.field hf' ?_ hsecond ?_)
        · simp [hne, hk']
        · exact hrest.congr_seen fun k => by simp only [List.mem_cons, or_left_comm]
  | trans _ _ ih ih' => exact ih' (ih h)

theorem Fills.reads_sorted (hr : r.Commutes) (h : r.Fills [] r.blank (ms.map fun e => (e.1, e.2.sorted)) c) :
    Reads r.decode (Value.object ms).sorted c := by
  have hnodup : (ms.map Prod.fst).Nodup := by simpa [Function.comp_def] using h.nodup.1
  rw [Value.sorted]
  exact (h.perm hr (sortedMembers_perm hnodup).symm).reads

section

variable {P : α → Prop}

theorem readMembers_induction (hfield : ∀ f ∈ r.fields, ∀ d a b, P a → f.read d a = .ok b → P b)
    {members : List (Key × Document)} {seen' : List String} (ha : P a)
    (h : r.readMembers seen a members = .ok (seen', b)) : P b := by
  induction members generalizing seen a with
  | nil =>
    cases h
    exact ha
  | cons e rest ih =>
    obtain ⟨k, d⟩ := e
    rw [Record.readMembers] at h
    obtain ⟨k, -, h⟩ := exists_of_bind_eq_ok h
    split at h
    · split at h
      · cases h
      · exact ih ha h
    · rename_i f hf
      split at h
      · cases h
      · obtain ⟨a', hread, h⟩ := exists_of_bind_eq_ok h
        exact ih (hfield f (List.mem_of_find?_eq_some hf) d a a' ha hread) h

theorem readItems_induction {stop : Option Break} {fields : List (Field α)} {items : List Document} {index : Nat}
    (hfield : ∀ f ∈ fields, ∀ d a b, P a → f.read d a = .ok b → P b) (ha : P a)
    (h : r.readItems stop index a fields items = .ok b) : P b := by
  induction fields generalizing items index a with
  | nil =>
    rw [Record.readItems] at h
    split at h
    · cases stop with
      | none =>
        cases h
        exact ha
      | some b => cases h
    · cases h
  | cons f fields ih =>
    have hrest : ∀ f ∈ fields, ∀ d a b, P a → f.read d a = .ok b → P b :=
      fun f hf => hfield f (List.mem_cons_of_mem _ hf)
    cases items with
    | nil =>
      rw [Record.readItems] at h
      obtain ⟨-, -, h⟩ := exists_of_bind_eq_ok h
      split at h
      · cases h
      · exact ih hrest ha h
    | cons d items =>
      rw [Record.readItems] at h
      obtain ⟨a', hread, h⟩ := exists_of_bind_eq_ok h
      exact ih hrest (hfield f List.mem_cons_self d a a' ha hread) h

theorem decode_induction (hblank : P r.blank) (hfield : ∀ f ∈ r.fields, ∀ d a b, P a → f.read d a = .ok b → P b)
    (h : r.decode d = .ok a) : P a := by
  unfold decode at h
  split at h
  · obtain ⟨⟨seen, b⟩, hmembers, h⟩ := exists_of_bind_eq_ok h
    obtain ⟨-, -, h⟩ := exists_of_bind_eq_ok h
    split at h
    · cases h
    · cases h
      exact readMembers_induction hfield hblank hmembers
  · exact readItems_induction hfield hblank h
  · cases h

end

end Record

end Compliance.Json
