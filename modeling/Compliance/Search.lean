import Compliance.Ordered.Keyed

namespace Compliance

section

variable {α κ : Type} [DecidableEq κ]

def unvisited (key : α → κ) (pool : List α) (met : List κ) : Nat :=
  pool.countP fun a => key a ∉ met

theorem countP_lt_of_imp {p q : α → Bool} {l : List α} {a : α} (h : ∀ b, p b → q b) (ha : a ∈ l)
    (hp : p a = false) (hq : q a = true) : l.countP p < l.countP q := by
  induction l with
  | nil => simp at ha
  | cons b rest ih =>
    rcases List.mem_cons.1 ha with rfl | ha
    · simpa [hp, hq, Nat.lt_succ_iff] using List.countP_mono_left fun x _ => h x
    · have := ih ha
      simp only [List.countP_cons]
      have hb : (if p b = true then 1 else 0) ≤ (if q b = true then 1 else 0) := by
        by_cases hpb : p b = true
        · simp [hpb, h b hpb]
        · simp [hpb]
      omega

theorem unvisited_cons_lt {key : α → κ} {pool : List α} {met : List κ} {a : α} (ha : a ∈ pool)
    (h : key a ∉ met) : unvisited key pool (key a :: met) < unvisited key pool met :=
  countP_lt_of_imp (fun b hb => by simp at hb; simp [hb.2]) ha (by simp) (by simp [h])

def pending (mark : α → κ) (next : α → List String) (met : List κ) : List α → Nat
  | [] => 0
  | a :: rest => (if mark a ∈ met then 0 else (next a).length) + pending mark next met rest

theorem pending_cons_le (mark : α → κ) (next : α → List String) (met : List κ) (k : κ) (pool : List α) :
    pending mark next (k :: met) pool ≤ pending mark next met pool := by
  induction pool with
  | nil => simp [pending]
  | cons b rest ih =>
    have hb : (if mark b ∈ k :: met then 0 else (next b).length) ≤
        if mark b ∈ met then 0 else (next b).length := by
      by_cases hb : mark b ∈ met
      · simp [hb]
      · by_cases hk : mark b = k <;> simp [hb, hk]
    exact Nat.add_le_add hb ih

theorem pending_cons_add_le {mark : α → κ} (next : α → List String) {met : List κ} {pool : List α}
    {a : α} (ha : a ∈ pool) (h : mark a ∉ met) :
    pending mark next (mark a :: met) pool + (next a).length ≤ pending mark next met pool := by
  induction pool with
  | nil => simp at ha
  | cons b rest ih =>
    rcases List.mem_cons.1 ha with rfl | ha
    · have := pending_cons_le mark next met (mark a) rest
      simp only [pending, h, List.mem_cons_self, if_true, if_false]
      omega
    · have := ih ha
      have hb : (if mark b ∈ mark a :: met then 0 else (next b).length) ≤
          if mark b ∈ met then 0 else (next b).length := by
        by_cases hb : mark b ∈ met
        · simp [hb]
        · by_cases hk : mark b = mark a <;> simp [hb, hk]
      simp only [pending]
      omega

/-- Names still to be looked up come from the front; an entry puts its own before the others. -/
def preorder {name : α → String} (pool : Keyed name) (mark : α → κ) (next : α → List String)
    (met : List κ) : List String → List (String × Option α)
  | [] => []
  | n :: rest =>
    match _h : pool.find? n with
    | none => (n, none) :: preorder pool mark next met rest
    | some a =>
      if _ha : mark a ∈ met then preorder pool mark next met rest
      else (n, some a) :: preorder pool mark next (mark a :: met) (next a ++ rest)
termination_by names => pending mark next met pool.entries + names.length
decreasing_by
  · simp
  · simp
  · have := pending_cons_add_le next (Keyed.mem_of_find? _h) _ha
    simp only [List.length_append, List.length_cons]
    omega

end

def gather {σ α β : Type} (step : α → σ → Option β × σ) : List α → σ → List β × σ
  | [], s => ([], s)
  | a :: rest, s =>
    let (b, s) := step a s
    let (bs, s) := gather step rest s
    (b.toList ++ bs, s)

end Compliance
