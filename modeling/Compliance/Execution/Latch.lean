import Compliance.Ordered.NameSet

/-!
A latch over named keys. Whoever waits gets a ticket for the round that is armed; a round is
released when its last key is done or the latch is decommissioned, and the next key to be added
after a release arms a new round.
-/

namespace Compliance

structure Latch where
  pending : NameSet := Keyed.empty
  round : Nat := 0
  armed : Bool := true
  deriving DecidableEq

namespace Latch

def add (l : Latch) (k : String) : Latch where
  pending := Keyed.insert l.pending k
  round := if l.armed then l.round else l.round + 1
  armed := true

def done (l : Latch) (k : String) : Latch :=
  if l.pending.contains k then
    let rest := l.pending.erase k
    { l with pending := rest, armed := l.armed && !rest.isEmpty }
  else l

def decommission (l : Latch) : List String × Latch :=
  (l.pending.entries, { pending := Keyed.empty, round := l.round + 1, armed := true })

def wait (l : Latch) : Option Nat := if l.pending.isEmpty then none else some l.round

def released (l : Latch) (ticket : Nat) : Bool :=
  decide (ticket < l.round) || (ticket == l.round && !l.armed)

section

variable {l : Latch} {k k' : String} {n : Nat}

theorem done_of_not_mem (h : k ∉ l.pending) : l.done k = l := by
  rw [done, if_neg fun hc => h (NameSet.contains_iff.mp hc)]

theorem done_of_mem (h : k ∈ l.pending) : l.done k =
    { l with pending := l.pending.erase k, armed := l.armed && !(l.pending.erase k).isEmpty } := by
  rw [done, if_pos (NameSet.contains_iff.mpr h)]

theorem mem_pending_add : k ∈ (l.add k').pending ↔ k = k' ∨ k ∈ l.pending := NameSet.mem_insert

theorem mem_pending_done : k ∈ (l.done k').pending ↔ k ∈ l.pending ∧ k ≠ k' := by
  by_cases hk : k' ∈ l.pending
  · rw [done_of_mem hk]
    exact NameSet.mem_erase.trans and_comm
  · rw [done_of_not_mem hk]
    exact ⟨fun hmem => ⟨hmem, fun he => hk (he ▸ hmem)⟩, fun h => h.1⟩

theorem wait_eq_some : l.wait = some n ↔ l.pending.isEmpty = false ∧ l.round = n := by
  unfold wait
  cases l.pending.isEmpty <;> simp

theorem released_eq_false (h : n ≤ l.round) : l.released n = false ↔ n = l.round ∧ l.armed = true := by
  rcases Nat.lt_or_eq_of_le h with hlt | rfl
  · simp [released, hlt, Nat.ne_of_lt hlt]
  · simp [released]

end

inductive Step
  | add (k : String)
  | done (k : String)
  | pending
  | wait
  | decommission
  deriving DecidableEq

structure Observation where
  pending : Nat
  missing : Option (List String) := none
  returned : Option Bool := none
  released : Nat := 0
  deriving DecidableEq

def step (l : Latch) (waiting : List Nat) : Step → Latch × List Nat × Observation
  | .add k => settle (l.add k) waiting none none
  | .done k => settle (l.done k) waiting none none
  | .pending => settle l waiting none none
  | .wait =>
    match l.wait with
    | none => settle l waiting none (some true)
    | some t => settle l (waiting ++ [t]) none (some false)
  | .decommission =>
    let (missing, l) := l.decommission
    settle l waiting (some missing) none
where
  settle (l : Latch) (waiting : List Nat) (missing : Option (List String)) (returned : Option Bool) :
      Latch × List Nat × Observation :=
    (l, waiting.filter (!l.released ·), {
      pending := l.pending.size
      missing := missing
      returned := returned
      released := (waiting.filter l.released).length })

def run (l : Latch) (waiting : List Nat) : List Step → List Observation
  | [] => []
  | s :: rest =>
    let (l, waiting, o) := l.step waiting s
    o :: run l waiting rest

end Latch

end Compliance
