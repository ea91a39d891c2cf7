import Compliance.Search
import Mathlib.Tactic.Common

namespace Compliance

section

variable {α κ : Type} [DecidableEq κ] {name : α → String} {pool : Keyed name} {mark : α → κ}
  {next : α → List String} {met met' : List κ} {n : String} {names xs ys : List String} {a b : α}

def marked (mark : α → κ) (l : List (String × Option α)) : List κ := (l.filterMap (·.2)).map mark

theorem preorder_nil : preorder pool mark next met [] = [] := by
  rw [preorder]

theorem preorder_none (h : pool.find? n = none) :
    preorder pool mark next met (n :: names) = (n, none) :: preorder pool mark next met names := by
  rw [preorder]
  split
  · rfl
  · simp_all

theorem preorder_met (h : pool.find? n = some a) (hm : mark a ∈ met) :
    preorder pool mark next met (n :: names) = preorder pool mark next met names := by
  rw [preorder]
  split
  · simp_all
  · rename_i c hc
    obtain rfl := Option.some.inj (h.symm.trans hc)
    rw [dif_pos hm]

theorem preorder_new (h : pool.find? n = some a) (hm : mark a ∉ met) :
    preorder pool mark next met (n :: names) =
      (n, some a) :: preorder pool mark next (mark a :: met) (next a ++ names) := by
  rw [preorder]
  split
  · simp_all
  · rename_i c hc
    obtain rfl := Option.some.inj (h.symm.trans hc)
    rw [dif_neg hm]

theorem preorder_induction (pool : Keyed name) (mark : α → κ) (next : α → List String)
    {motive : List κ → List String → Prop} (nil : ∀ met, motive met [])
    (none : ∀ met n names, pool.find? n = none → motive met names → motive met (n :: names))
    (seen : ∀ met n names a, pool.find? n = some a → mark a ∈ met → motive met names → motive met (n :: names))
    (new : ∀ met n names a, pool.find? n = some a → mark a ∉ met → motive (mark a :: met) (next a ++ names) →
      motive met (n :: names)) (met : List κ) (names : List String) : motive met names := by
  fun_induction preorder pool mark next met names with
  | case1 met => exact nil met
  | case2 met n names h ih => exact none met n names h ih
  | case3 met n names a h hm ih => exact seen met n names a h hm ih
  | case4 met n names a h hm ih => exact new met n names a h hm ih

theorem preorder_congr (h : ∀ k, k ∈ met ↔ k ∈ met') :
    preorder pool mark next met names = preorder pool mark next met' names := by
  induction met, names using preorder_induction pool mark next generalizing met' with
  | nil met => rw [preorder_nil, preorder_nil]
  | none met n names hn ih => rw [preorder_none hn, preorder_none hn, ih h]
  | seen met n names a hn hm ih => rw [preorder_met hn hm, preorder_met hn ((h _).mp hm), ih h]
  | new met n names a hn hm ih =>
    rw [preorder_new hn hm, preorder_new hn fun hm' => hm ((h _).mpr hm'), ih fun k => ?_]
    simp [h]

theorem preorder_append : preorder pool mark next met (xs ++ ys) = preorder pool mark next met xs ++
    preorder pool mark next (marked mark (preorder pool mark next met xs) ++ met) ys := by
  induction met, xs using preorder_induction pool mark next with
  | nil met => simp [preorder_nil, marked]
  | none met n names hn ih => simpa [preorder_none hn, marked] using ih
  | seen met n names a hn hm ih => simpa [preorder_met hn hm] using ih
  | new met n names a hn hm ih =>
    rw [List.cons_append, preorder_new hn hm, preorder_new hn hm, ← List.append_assoc, ih, List.cons_append]
    congr 2
    apply preorder_congr
    intro k
    simp [marked, or_left_comm]

theorem find?_of_mem_preorder (h : (n, some a) ∈ preorder pool mark next met names) : pool.find? n = some a := by
  induction met, names using preorder_induction pool mark next with
  | nil met => simp [preorder_nil] at h
  | none met m names hn ih =>
    rw [preorder_none hn] at h
    exact ih (by simpa using h)
  | seen met m names c hn hm ih =>
    rw [preorder_met hn hm] at h
    exact ih h
  | new met m names c hn hm ih =>
    rw [preorder_new hn hm] at h
    rcases List.mem_cons.mp h with h | h
    · obtain ⟨rfl, hc⟩ := Prod.mk.inj h
      rw [hn, ← hc]
    · exact ih h

theorem mem_marked_preorder (hn : n ∈ names) (ha : pool.find? n = some a) :
    mark a ∈ marked mark (preorder pool mark next met names) ∨ mark a ∈ met := by
  induction met, names using preorder_induction pool mark next with
  | nil met => cases hn
  | none met m names hm ih =>
    rcases List.mem_cons.mp hn with rfl | hn
    · simp [hm] at ha
    · simpa [preorder_none hm, marked] using ih hn
  | seen met m names c hc hm ih =>
    rw [preorder_met hc hm]
    rcases List.mem_cons.mp hn with rfl | hn
    · obtain rfl := Option.some.inj (ha.symm.trans hc)
      exact .inr hm
    · exact ih hn
  | new met m names c hc hm ih =>
    have hcons : marked mark (preorder pool mark next met (m :: names)) =
        mark c :: marked mark (preorder pool mark next (mark c :: met) (next c ++ names)) := by
      rw [preorder_new hc hm]
      rfl
    rw [hcons]
    rcases List.mem_cons.mp hn with rfl | hn
    · obtain rfl := Option.some.inj (ha.symm.trans hc)
      exact .inl List.mem_cons_self
    · -- the names that were waiting wait behind those that the entry puts in front
      rcases ih (List.mem_append_right _ hn) with h | h
      · exact .inl (List.mem_cons_of_mem _ h)
      · rcases List.mem_cons.mp h with h | h
        · exact .inl (h ▸ List.mem_cons_self)
        · exact .inr h

theorem next_mem_marked_preorder (ha : a ∈ (preorder pool mark next met names).filterMap (·.2)) (hn : n ∈ next a)
    (hb : pool.find? n = some b) : mark b ∈ marked mark (preorder pool mark next met names) ∨ mark b ∈ met := by
  induction met, names using preorder_induction pool mark next with
  | nil met => simp [preorder_nil] at ha
  | none met m names hm ih =>
    rw [preorder_none hm] at ha ⊢
    simpa [marked] using ih (by simpa using ha)
  | seen met m names c hc hm ih =>
    rw [preorder_met hc hm] at ha ⊢
    exact ih ha
  | new met m names c hc hm ih =>
    have hcons : marked mark (preorder pool mark next met (m :: names)) =
        mark c :: marked mark (preorder pool mark next (mark c :: met) (next c ++ names)) := by
      rw [preorder_new hc hm]
      rfl
    rw [preorder_new hc hm] at ha
    -- the names of the entry itself are in front; those of a later entry are met later
    have hrest : mark b ∈ marked mark (preorder pool mark next (mark c :: met) (next c ++ names)) ∨ mark b ∈ mark c :: met := by
      rcases List.mem_cons.mp ha with rfl | ha
      · exact mem_marked_preorder (List.mem_append_left _ hn) hb
      · exact ih ha
    rw [hcons]
    rcases hrest with h | h
    · exact .inl (List.mem_cons_of_mem _ h)
    · rcases List.mem_cons.mp h with h | h
      · exact .inl (h ▸ List.mem_cons_self)
      · exact .inr h

theorem preorder_filter {β : Type} (f : β → String) {keep : β → Bool} {l : List β}
    (h : ∀ x ∈ l, keep x = false → ∃ a, pool.find? (f x) = some a ∧ mark a ∈ met) :
    preorder pool mark next met ((l.filter keep).map f) = preorder pool mark next met (l.map f) := by
  induction l generalizing met with
  | nil => rfl
  | cons x rest ih =>
    cases hx : keep x with
    | false =>
      obtain ⟨a, ha, hm⟩ := h x List.mem_cons_self hx
      rw [List.filter_cons_of_neg (by simp [hx]), List.map_cons, preorder_met ha hm]
      exact ih fun y hy => h y (List.mem_cons_of_mem _ hy)
    | true =>
      have hsplit : ∀ zs : List String, f x :: zs = [f x] ++ zs := fun _ => rfl
      rw [List.filter_cons_of_pos hx, List.map_cons, List.map_cons, hsplit, preorder_append, hsplit (List.map f rest),
        preorder_append, ih]
      intro y hy hk
      obtain ⟨a, ha, hm⟩ := h y (List.mem_cons_of_mem _ hy) hk
      exact ⟨a, ha, List.mem_append_right _ hm⟩

theorem marked_preorder_nodup : (marked mark (preorder pool mark next met names)).Nodup ∧
    ∀ k ∈ marked mark (preorder pool mark next met names), k ∉ met := by
  induction met, names using preorder_induction pool mark next with
  | nil met => simp [preorder_nil, marked]
  | none met n names hn ih => simpa [preorder_none hn, marked] using ih
  | seen met n names a hn hm ih => simpa [preorder_met hn hm] using ih
  | new met n names a hn hm ih =>
    obtain ⟨hnodup, hfresh⟩ := ih
    have hcons : marked mark (preorder pool mark next met (n :: names)) =
        mark a :: marked mark (preorder pool mark next (mark a :: met) (next a ++ names)) := by
      rw [preorder_new hn hm]
      rfl
    rw [hcons]
    refine ⟨List.nodup_cons.mpr ⟨fun hk => hfresh _ hk List.mem_cons_self, hnodup⟩, fun k hk => ?_⟩
    rcases List.mem_cons.mp hk with rfl | hk
    · exact hm
    · exact fun hmet => hfresh k hk (List.mem_cons_of_mem _ hmet)

theorem forall_mem_preorder {P : α → Prop} (hs : ∀ n ∈ names, ∀ a, pool.find? n = some a → P a)
    (hn : ∀ a ∈ (preorder pool mark next met names).filterMap (·.2), P a →
      ∀ n ∈ next a, ∀ b, pool.find? n = some b → P b) :
    ∀ a ∈ (preorder pool mark next met names).filterMap (·.2), P a := by
  induction met, names using preorder_induction pool mark next with
  | nil met => simp [preorder_nil]
  | none met m names hm ih =>
    have hnone : (preorder pool mark next met (m :: names)).filterMap (·.2) =
        (preorder pool mark next met names).filterMap (·.2) := by
      rw [preorder_none hm]
      rfl
    rw [hnone] at hn ⊢
    exact ih (fun n hmem => hs n (List.mem_cons_of_mem _ hmem)) hn
  | seen met m names c hc hm ih =>
    rw [preorder_met hc hm] at hn ⊢
    exact ih (fun n hmem => hs n (List.mem_cons_of_mem _ hmem)) hn
  | new met m names c hc hm ih =>
    have hcons : (preorder pool mark next met (m :: names)).filterMap (·.2) =
        c :: (preorder pool mark next (mark c :: met) (next c ++ names)).filterMap (·.2) := by
      rw [preorder_new hc hm]
      rfl
    have hfirst : P c := hs m List.mem_cons_self c hc
    rw [hcons] at hn ⊢
    refine List.forall_mem_cons.mpr ⟨hfirst, ih (fun n hmem b hb => ?_) fun a ha => hn a (List.mem_cons_of_mem _ ha)⟩
    rcases List.mem_append.mp hmem with hmem | hmem
    · exact hn c List.mem_cons_self hfirst n hmem b hb
    · exact hs n (List.mem_cons_of_mem _ hmem) b hb

inductive Reached (pool : Keyed name) (next : α → List String) (names : List String) : α → Prop
  | named {n : String} {a : α} : n ∈ names → pool.find? n = some a → Reached pool next names a
  | next {n : String} {a b : α} : Reached pool next names a → n ∈ next a → pool.find? n = some b →
    Reached pool next names b

theorem Reached.mono (h : Reached pool next xs a) (hs : xs ⊆ ys) : Reached pool next ys a := by
  induction h with
  | named hn ha => exact .named (hs hn) ha
  | next _ hn hb ih => exact .next ih hn hb

theorem reached_of_mem_preorder (h : a ∈ (preorder pool mark next met names).filterMap (·.2))
    (hs : ∀ n ∈ names, ∀ a, pool.find? n = some a → Reached pool next xs a) : Reached pool next xs a :=
  forall_mem_preorder hs (fun _ _ ha _ hn _ hb => .next ha hn hb) a h

theorem mem_preorder_iff : a ∈ (preorder pool name next [] names).filterMap (·.2) ↔ Reached pool next names a := by
  have met_of_mark : ∀ {b : α}, pool.find? (name b) = some b →
      name b ∈ marked name (preorder pool name next [] names) ∨ name b ∈ ([] : List String) →
        b ∈ (preorder pool name next [] names).filterMap (·.2) := by
    intro b hb hm
    obtain ⟨c, hc, hcb⟩ := List.mem_map.mp (hm.resolve_right List.not_mem_nil)
    obtain ⟨⟨m, _⟩, hx, rfl⟩ := List.mem_filterMap.mp hc
    have hfind := find?_of_mem_preorder hx
    rw [← Keyed.key_of_find? hfind, hcb] at hfind
    rwa [Option.some.inj (hb.symm.trans hfind)]
  constructor
  · exact fun h => reached_of_mem_preorder h fun n hn a ha => .named hn ha
  · intro h
    induction h with
    | named hn ha =>
      have hk := Keyed.key_of_find? ha
      exact met_of_mark (hk.symm ▸ ha) (mem_marked_preorder hn ha)
    | next _ hn hb ih =>
      have hk := Keyed.key_of_find? hb
      exact met_of_mark (hk.symm ▸ hb) (next_mem_marked_preorder ih hn hb)

end

end Compliance
