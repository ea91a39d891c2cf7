import Compliance.Proofs.Waiting
import Mathlib.Data.List.Induction
import Mathlib.Data.Set.Card

namespace Compliance.Latch

variable {l : Latch} {waiting : List Nat} {history steps more : List Step} {s : Step} {k : String} {d t : Nat}

/-- A key that was added after it was last done and after the last decommission. -/
def Outstanding (history : List Step) (k : String) : Prop :=
  ∃ before since, history = before ++ .add k :: since ∧ .done k ∉ since ∧ .decommission ∉ since

def turn (l : Latch) : Step → Latch
  | .add k => l.add k
  | .done k => l.done k
  | .decommission => l.decommission.2
  | .pending | .wait => l

theorem exists_settle (l : Latch) (waiting : List Nat) (s : Step) : ∃ new missing returned,
    l.step waiting s = step.settle (l.turn s) (waiting ++ new) missing returned ∧ ∀ t ∈ new, t = l.round := by
  cases s with
  | add k => exact ⟨[], none, none, by rw [List.append_nil]; rfl, by simp⟩
  | done k => exact ⟨[], none, none, by rw [List.append_nil]; rfl, by simp⟩
  | pending => exact ⟨[], none, none, by rw [List.append_nil]; rfl, by simp⟩
  | decommission => exact ⟨[], some l.pending.entries, none, by rw [List.append_nil]; rfl, by simp⟩
  | wait =>
    cases hw : l.wait with
    | none => exact ⟨[], none, some true, by simp [step, hw, turn], by simp⟩
    | some t => exact ⟨[t], none, some false, by simp [step, hw, turn], by simp [(wait_eq_some.mp hw).2]⟩

theorem step_fst : (l.step waiting s).1 = l.turn s := by
  obtain ⟨new, missing, returned, he, -⟩ := exists_settle l waiting s
  rw [he]
  rfl

theorem step_pending : (l.step waiting s).2.2.pending = (l.turn s).pending.size := by
  obtain ⟨new, missing, returned, he, -⟩ := exists_settle l waiting s
  rw [he]
  rfl

theorem round_le_turn : l.round ≤ (l.turn s).round := by
  cases s with
  | add k => exact (Turn.add () k).round_le
  | done k => exact (Turn.done () k).round_le
  | decommission => exact (Turn.decommission ()).round_le
  | pending => exact Nat.le_refl _
  | wait => exact Nat.le_refl _

theorem le_round_step (h : ∀ t ∈ waiting, t ≤ l.round) : ∀ t ∈ (l.step waiting s).2.1, t ≤ (l.turn s).round := by
  obtain ⟨new, missing, returned, he, hnew⟩ := exists_settle l waiting s
  intro t ht
  rw [he] at ht
  refine Nat.le_trans ?_ round_le_turn
  rcases List.mem_append.mp (List.mem_of_mem_filter ht) with ht | ht
  · exact h t ht
  · exact Nat.le_of_eq (hnew t ht)

theorem mem_pending_turn :
    k ∈ (l.turn s).pending ↔ s = .add k ∨ k ∈ l.pending ∧ s ≠ .done k ∧ s ≠ .decommission := by
  cases s with
  | add k' => simp [turn, mem_pending_add, eq_comm]
  | done k' => simp [turn, mem_pending_done, eq_comm]
  | decommission => simp [turn, decommission]
  | pending => simp [turn]
  | wait => simp [turn]

theorem outstanding_concat :
    Outstanding (history ++ [s]) k ↔ s = .add k ∨ Outstanding history k ∧ s ≠ .done k ∧ s ≠ .decommission := by
  constructor
  · rintro ⟨before, since, he, hdone, hdecommission⟩
    rcases List.eq_nil_or_concat since with rfl | ⟨since, last, rfl⟩
    · exact .inl (List.cons.inj (List.append_inj' he rfl).2).1
    · rw [List.concat_eq_append, ← List.cons_append, ← List.append_assoc] at he
      obtain ⟨rfl, hlast⟩ := List.append_inj' he rfl
      obtain rfl := (List.cons.inj hlast).1
      simp only [List.concat_eq_append, List.mem_append, List.mem_singleton, not_or] at hdone hdecommission
      exact .inr ⟨⟨before, since, rfl, hdone.1, hdecommission.1⟩, Ne.symm hdone.2, Ne.symm hdecommission.2⟩
  · rintro (rfl | ⟨⟨before, since, rfl, hdone, hdecommission⟩, hk, hs⟩)
    · exact ⟨history, [], rfl, List.not_mem_nil, List.not_mem_nil⟩
    · refine ⟨before, since ++ [s], by simp, ?_, ?_⟩
      · simp [hdone, Ne.symm hk]
      · simp [hdecommission, Ne.symm hs]

def state (l : Latch) (waiting : List Nat) : List Step → Latch × List Nat
  | [] => (l, waiting)
  | s :: rest => state (l.step waiting s).1 (l.step waiting s).2.1 rest

def after (history : List Step) : Latch := (state {} [] history).1

theorem run_append : run l waiting (steps ++ more) =
    run l waiting steps ++ run (state l waiting steps).1 (state l waiting steps).2 more := by
  induction steps generalizing l waiting with
  | nil => rfl
  | cons s rest ih => exact congrArg _ ih

theorem state_append :
    state l waiting (steps ++ more) = state (state l waiting steps).1 (state l waiting steps).2 more := by
  induction steps generalizing l waiting with
  | nil => rfl
  | cons s rest ih => exact ih

theorem le_round_state (h : ∀ t ∈ waiting, t ≤ l.round) :
    ∀ t ∈ (state l waiting steps).2, t ≤ (state l waiting steps).1.round := by
  induction steps generalizing l waiting with
  | nil => exact h
  | cons s rest ih =>
    refine ih fun t ht => ?_
    rw [step_fst]
    exact le_round_step h t ht

theorem after_concat : after (history ++ [s]) = (after history).turn s := by
  rw [after, state_append]
  exact step_fst

theorem mem_pending_after : k ∈ (after history).pending ↔ Outstanding history k := by
  induction history using List.reverseRecOn with
  | nil => simp [after, state, Outstanding]
  | append_singleton history s ih => rw [after_concat, mem_pending_turn, outstanding_concat, ih]

theorem size_pending_after : (after history).pending.size = {k | Outstanding history k}.ncard := by
  have hset : {k | Outstanding history k} = ((after history).pending.entries.toFinset : Set String) := by
    ext k
    rw [Set.mem_ofPred_eq, ← mem_pending_after, Finset.mem_coe, List.mem_toFinset, NameSet.mem_entries]
  rw [hset, Set.ncard_coe_finset, List.toFinset_card_of_nodup (NameSet.nodup _), Keyed.size]

def shift (d : Nat) (l : Latch) : Latch := { l with round := l.round + d }

theorem released_shift : (l.shift d).released (t + d) = l.released t := by
  have hlt : t + d < l.round + d ↔ t < l.round := by omega
  have heq : (t + d == l.round + d) = (t == l.round) := by rw [Bool.eq_iff_iff, beq_iff_eq, beq_iff_eq]; omega
  simp only [released, shift, hlt, heq]

theorem turn_shift : (l.shift d).turn s = (l.turn s).shift d := by
  cases s with
  | add k => cases ha : l.armed <;> simp [turn, add, shift, ha, Nat.add_right_comm]
  | done k => by_cases hk : l.pending.contains k = true <;> simp [turn, done, shift, hk]
  | decommission => simp [turn, decommission, shift, Nat.add_right_comm]
  | pending => rfl
  | wait => rfl

theorem settle_shift (l : Latch) (waiting : List Nat) (missing : Option (List String)) (returned : Option Bool) :
    step.settle (l.shift d) (waiting.map (· + d)) missing returned =
      ((step.settle l waiting missing returned).1.shift d, (step.settle l waiting missing returned).2.1.map (· + d),
        (step.settle l waiting missing returned).2.2) := by
  have hreleased : (l.shift d).released ∘ (· + d) = l.released := funext fun _ => released_shift
  have hwaiting : (fun t => !(l.shift d).released t) ∘ (· + d) = fun t => !l.released t :=
    funext fun _ => congrArg _ released_shift
  simp only [step.settle, List.filter_map, hreleased, hwaiting, List.length_map]
  rfl

theorem wait_shift : (l.shift d).wait = l.wait.map (· + d) := by
  unfold wait
  cases hl : l.pending.isEmpty <;> simp [shift, hl]

theorem step_shift : (l.shift d).step (waiting.map (· + d)) s =
    ((l.step waiting s).1.shift d, (l.step waiting s).2.1.map (· + d), (l.step waiting s).2.2) := by
  cases s with
  | add k => exact (congrArg (step.settle · _ _ _) (turn_shift (s := .add k))).trans (settle_shift _ _ _ _)
  | done k => exact (congrArg (step.settle · _ _ _) (turn_shift (s := .done k))).trans (settle_shift _ _ _ _)
  | decommission =>
    exact (congrArg (step.settle · _ _ _) (turn_shift (s := .decommission))).trans (settle_shift _ _ _ _)
  | pending => exact settle_shift _ _ _ _
  | wait =>
    cases hw : l.wait with
    | none => simpa [step, wait_shift, hw] using settle_shift l waiting none (some true)
    | some t => simpa [step, wait_shift, hw] using settle_shift l (waiting ++ [t]) none (some false)

theorem run_shift : run (l.shift d) (waiting.map (· + d)) steps = run l waiting steps := by
  induction steps generalizing l waiting with
  | nil => rfl
  | cons s rest ih => simp only [run, step_shift, ih]

theorem state_decommission (h : ∀ t ∈ waiting, t ≤ l.round) :
    state l waiting [.decommission] = (shift (l.round + 1) {}, []) := by
  have hreleased : ∀ t ∈ waiting, ¬(!l.decommission.2.released t) = true := by
    intro t ht
    have hlt : t < l.decommission.2.round := Nat.lt_succ_of_le (h t ht)
    simp [released, hlt]
  -- but for its round the latch is new, and every ticket is of a round that is over
  have hlatch : l.decommission.2 = shift (l.round + 1) {} := by simp [decommission, shift]
  exact Prod.ext hlatch (List.filter_eq_nil_iff.mpr hreleased)

structure Accounts (history : List Step) : Prop where
  pending : ∀ k, k ∈ (after history).pending ↔ Outstanding history k
  counted : ∀ s, ∃ o, run {} [] (history ++ [s]) = run {} [] history ++ [o] ∧
    o.pending = {k | Outstanding (history ++ [s]) k}.ncard
  missing : ∃ o keys, run {} [] (history ++ [.decommission]) = run {} [] history ++ [o] ∧ o.missing = some keys ∧
    keys.Pairwise (· < ·) ∧ (∀ k, k ∈ keys ↔ Outstanding history k) ∧ o.pending = 0
  renewed : ∀ later, run {} [] (history ++ .decommission :: later) =
    run {} [] (history ++ [.decommission]) ++ run {} [] later

theorem run_concat : run l waiting (steps ++ [s]) =
    run l waiting steps ++ [((state l waiting steps).1.step (state l waiting steps).2 s).2.2] := run_append

theorem run_accounts (history : List Step) : Accounts history where
  pending k := mem_pending_after
  counted s := by
    refine ⟨_, run_concat, ?_⟩
    rw [step_pending, ← size_pending_after, after_concat, after]
  missing := by
    refine ⟨_, _, run_concat, rfl, Keyed.ordered _, fun k => ?_, rfl⟩
    rw [← NameSet.mem_entries]
    exact mem_pending_after
  renewed later := by
    have hbound : ∀ t ∈ (state {} [] history).2, t ≤ (state {} [] history).1.round := le_round_state (by simp)
    calc run {} [] (history ++ .decommission :: later)
      _ = run {} [] (history ++ [.decommission] ++ later) := by rw [List.append_assoc, List.singleton_append]
      _ = run {} [] (history ++ [.decommission]) ++ run (shift ((state {} [] history).1.round + 1) {})
          ([].map (· + ((state {} [] history).1.round + 1))) later := by
        rw [run_append, state_append, state_decommission hbound, List.map_nil]
      _ = run {} [] (history ++ [.decommission]) ++ run {} [] later := by rw [run_shift]

end Compliance.Latch
