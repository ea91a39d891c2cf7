import Compliance.Proofs.Preorder

namespace Compliance

variable {α κ : Type} {name : α → String} {pool : Keyed name} {mark : α → κ} {next : α → List String}
  {found : List (String × Option α)} {names : List String} {n : Nat}

@[simp] theorem marked_append (xs ys : List (String × Option α)) :
    marked mark (xs ++ ys) = marked mark xs ++ marked mark ys := by
  simp [marked]

variable [DecidableEq κ]

def expand (pool : Keyed name) (mark : α → κ) (next : α → List String) :
    Nat → List (String × Option α) → String → Option (List (String × Option α))
  | 0, _, _ => none
  | k + 1, found, n =>
    match pool.find? n with
    | none => some (found ++ [(n, none)])
    | some a =>
      if mark a ∈ marked mark found then some found
      else (next a).foldlM (expand pool mark next k) (found ++ [(n, some a)])

theorem unvisited_le_length (key : α → κ) (l : List α) (met : List κ) : unvisited key l met ≤ l.length :=
  List.countP_le_length

theorem unvisited_anti {l : List α} {met met' : List κ} (h : met ⊆ met') : unvisited mark l met' ≤ unvisited mark l met :=
  List.countP_mono_left fun a _ ha => by
    simp only [decide_eq_true_eq] at ha ⊢
    exact fun hm => ha (h hm)

theorem foldlM_expand (h : ∀ m found, unvisited mark pool.entries (marked mark found) < n →
      expand pool mark next n found m = some (found ++ preorder pool mark next (marked mark found) [m]))
    (hn : unvisited mark pool.entries (marked mark found) < n) :
    names.foldlM (expand pool mark next n) found = some (found ++ preorder pool mark next (marked mark found) names) := by
  induction names generalizing found with
  | nil => simp [preorder_nil]
  | cons m rest ih =>
    have hless : unvisited mark pool.entries (marked mark (found ++ preorder pool mark next (marked mark found) [m])) < n :=
      Nat.lt_of_le_of_lt (unvisited_anti (by simp)) hn
    have hsplit : preorder pool mark next (marked mark found) (m :: rest) = preorder pool mark next (marked mark found) [m] ++
        preorder pool mark next (marked mark (found ++ preorder pool mark next (marked mark found) [m])) rest := by
      rw [← List.singleton_append, preorder_append]
      exact congrArg _ (preorder_congr fun k => by simp [or_comm])
    rw [List.foldlM_cons, h m found hn, Option.bind_eq_bind, Option.bind_some, ih hless, List.append_assoc, hsplit]

theorem expand_eq (m : String) (hn : unvisited mark pool.entries (marked mark found) < n) :
    expand pool mark next n found m = some (found ++ preorder pool mark next (marked mark found) [m]) := by
  induction n generalizing found m with
  | zero => omega
  | succ n ih =>
    rw [expand]
    cases hm : pool.find? m with
    | none => rw [preorder_none hm, preorder_nil]
    | some a =>
      by_cases ha : mark a ∈ marked mark found
      · simp [ha, preorder_met hm ha, preorder_nil]
      · have hlt := unvisited_cons_lt (Keyed.mem_of_find? hm) ha
        have hmet : ∀ k, k ∈ marked mark (found ++ [(m, some a)]) ↔ k ∈ mark a :: marked mark found := by
          intro k
          simp [marked, or_comm]
        -- the bound falls by one with each call, and so do the marks that are left
        have hless : unvisited mark pool.entries (marked mark (found ++ [(m, some a)])) < n := by
          have hle : unvisited mark pool.entries (marked mark (found ++ [(m, some a)])) ≤
              unvisited mark pool.entries (mark a :: marked mark found) := unvisited_anti fun k hk => (hmet k).mpr hk
          omega
        simp only [ha, ↓reduceIte]
        rw [foldlM_expand (fun m found h => ih m h) hless, preorder_new hm ha, List.append_nil, List.append_assoc,
          List.singleton_append, preorder_congr hmet]

/-- A search that comes back before it is deeper than there are entries, with all that it has expanded. Each expansion
adds a mark that was not there before. -/
structure Expands (pool : Keyed name) (mark : α → κ) (next : α → List String) (names : List String) (out : List α) :
    Prop where
  returns : ∀ n, pool.size < n → ∃ found, names.foldlM (expand pool mark next n) [] = some found ∧
    found.filterMap (·.2) = out
  new : ∀ before a after, out = before ++ a :: after → mark a ∉ before.map mark
  mem : ∀ a ∈ out, a ∈ pool.entries

theorem preorder_expands (pool : Keyed name) (mark : α → κ) (next : α → List String) (names : List String) :
    Expands pool mark next names ((preorder pool mark next [] names).filterMap (·.2)) where
  returns n hn := by
    have hroom : unvisited mark pool.entries (marked mark ([] : List (String × Option α))) < n :=
      Nat.lt_of_le_of_lt (unvisited_le_length ..) hn
    exact ⟨_, foldlM_expand (fun m found h => expand_eq m h) hroom, rfl⟩
  new before a after h hm := by
    have hnodup : (marked mark (preorder pool mark next [] names)).Nodup := marked_preorder_nodup.1
    rw [marked, h, List.map_append, List.map_cons] at hnodup
    exact (List.nodup_append.mp hnodup).2.2 _ hm _ List.mem_cons_self rfl
  mem a ha := by
    obtain ⟨⟨m, o⟩, hx, rfl⟩ := List.mem_filterMap.mp ha
    exact Keyed.mem_of_find? (find?_of_mem_preorder hx)

end Compliance
