import Compliance.Search
import Mathlib.Logic.Relation
import Mathlib.Tactic.Common

namespace Compliance

section

variable {α : Type} (pool : List α) (name : α → String) (next : α → List String)

def nexts (n : String) : List String := (pool.filter (name · == n)).flatMap next

def finish (path : List String) (n : String) (done : List String) : List String :=
  if n ∈ done then done
  else if _hn : n ∈ path then done
  else
    match _h : pool.filter (name · == n) with
    | [] => n :: done
    | a :: rest => n :: ((a :: rest).flatMap next).foldl (fun done k => finish (n :: path) k done) done
termination_by unvisited name pool path
decreasing_by
  have hf : a ∈ pool.filter (name · == n) := _h ▸ List.mem_cons_self
  obtain ⟨ha, hn⟩ := List.mem_filter.1 hf
  obtain rfl : name a = n := by simpa using hn
  exact unvisited_cons_lt ha _hn

variable {pool name next} {path done names : List String} {n k : String}

theorem finish_done (h : n ∈ done) : finish pool name next path n done = done := by
  rw [finish, if_pos h]

theorem finish_busy (h : n ∈ path) : finish pool name next path n done = done := by
  by_cases hd : n ∈ done
  · exact finish_done hd
  · rw [finish, if_neg hd, dif_pos h]

theorem finish_first (hd : n ∉ done) (hp : n ∉ path) : finish pool name next path n done =
    n :: (nexts pool name next n).foldl (fun done k => finish pool name next (n :: path) k done) done := by
  rw [finish, if_neg hd, dif_neg hp, nexts]
  split
  · rename_i h
    rw [h]
    rfl
  · rename_i h
    rw [h]

theorem unvisited_nexts_lt (hk : k ∈ nexts pool name next n) (hp : n ∉ path) :
    unvisited name pool (n :: path) < unvisited name pool path := by
  obtain ⟨a, hf, -⟩ := List.mem_flatMap.mp hk
  obtain ⟨ha, hn⟩ := List.mem_filter.mp hf
  obtain rfl : name a = n := by simpa using hn
  exact unvisited_cons_lt ha hp

structure Finished (leads : String → String → Prop) (path done : List String) : Prop where
  once : done.Nodup
  apart : ∀ n ∈ path, n ∉ done
  after : ∀ n tail, n :: tail <:+ done → ∀ k, leads n k → k ∈ tail ∨ Relation.ReflTransGen leads k n

variable {leads : String → String → Prop}

theorem Finished.nil : Finished leads path [] :=
  ⟨List.nodup_nil, by simp, fun n tail ht => absurd (List.suffix_nil.mp ht) (by simp)⟩

theorem Finished.foldl {visit : String → List String → List String} (names : List String) (hd : Finished leads path done)
    (h : ∀ k ∈ names, ∀ done, Finished leads path done →
      Finished leads path (visit k done) ∧ done <:+ visit k done ∧ (k ∈ visit k done ∨ k ∈ path)) :
    Finished leads path (names.foldl (fun done k => visit k done) done) ∧
      done <:+ names.foldl (fun done k => visit k done) done ∧
        ∀ k ∈ names, k ∈ names.foldl (fun done k => visit k done) done ∨ k ∈ path := by
  induction names generalizing done with
  | nil => exact ⟨hd, List.suffix_refl _, by simp⟩
  | cons n rest ih =>
    obtain ⟨hfirst, hext, hmet⟩ := h n List.mem_cons_self done hd
    obtain ⟨hlast, hext', hmets⟩ := ih hfirst fun k hk => h k (List.mem_cons_of_mem _ hk)
    refine ⟨hlast, hext.trans hext', fun k hk => ?_⟩
    rcases List.mem_cons.mp hk with rfl | hk
    · exact hmet.imp (fun hk => hext'.subset hk) id
    · exact hmets k hk

theorem finish_finished (hl : ∀ n k, leads n k ↔ k ∈ nexts pool name next n) {path : List String} {n : String}
    {done : List String} (hd : Finished leads path done)
    (hp : ∀ k ∈ path, Relation.ReflTransGen leads k n) :
    Finished leads path (finish pool name next path n done) ∧ done <:+ finish pool name next path n done ∧
      (n ∈ finish pool name next path n done ∨ n ∈ path) := by
  by_cases hn : n ∈ done
  · rw [finish_done hn]
    exact ⟨hd, List.suffix_refl _, .inl hn⟩
  by_cases hpath : n ∈ path
  · rw [finish_busy hpath]
    exact ⟨hd, List.suffix_refl _, .inr hpath⟩
  rw [finish_first hn hpath]
  -- while the name is on the path, what leads back to it stays open
  have hbusy : Finished leads (n :: path) done :=
    ⟨hd.once, List.forall_mem_cons.mpr ⟨hn, hd.apart⟩, hd.after⟩
  have hback : ∀ k ∈ n :: path, Relation.ReflTransGen leads k n := List.forall_mem_cons.mpr ⟨.refl, hp⟩
  obtain ⟨hbelow, hext, hmet⟩ := hbusy.foldl (nexts pool name next n)
    fun k hk done hd => finish_finished hl hd fun j hj => (hback j hj).tail ((hl n k).mpr hk)
  generalize (nexts pool name next n).foldl (fun done k => finish pool name next (n :: path) k done) done = below at *
  obtain ⟨hfresh, hapart⟩ := List.forall_mem_cons.mp hbelow.apart
  refine ⟨⟨List.nodup_cons.mpr ⟨hfresh, hbelow.once⟩, fun k hk hmem => ?_, fun m tail ht k hk => ?_⟩,
    hext.trans (List.suffix_cons ..), .inl List.mem_cons_self⟩
  · rcases List.mem_cons.mp hmem with rfl | hmem
    · exact hpath hk
    · exact hapart k hk hmem
  · rcases List.suffix_cons_iff.mp ht with ht | ht
    · obtain ⟨rfl, rfl⟩ := List.cons.inj ht
      -- what it leads to is done by now, or else busy, and so leads back
      exact (hmet k ((hl m k).mp hk)).imp id (hback k)
    · exact hbelow.after m tail ht k hk
termination_by unvisited name pool path
decreasing_by exact unvisited_nexts_lt hk hpath

end

end Compliance
