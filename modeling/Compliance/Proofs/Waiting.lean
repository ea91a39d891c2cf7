import Compliance.Execution.Latch
import Mathlib.Data.List.Infix
import Mathlib.Logic.Function.Basic
import Mathlib.Tactic.Common

/-!
Threads around a latch, every act of one of them atomic. To wait is two acts: to read the latch and, when
keys are pending, to hold the ticket of its round; and later to receive, which can only happen once that
round is released. A wait is over exactly when there has been a moment without pending keys since it began.
-/

namespace Compliance

inductive Act (τ : Type)
  | add (t : τ) (k : String)
  | done (t : τ) (k : String)
  | decommission (t : τ)
  | wait (t : τ)
  | receive (t : τ)
  deriving DecidableEq

structure Room (τ : Type) where
  latch : Latch := {}
  held : τ → Option Nat := fun _ => none

namespace Room

variable {τ : Type} [DecidableEq τ]

/-- A thread that holds a ticket can do nothing but receive. -/
def step (s : Room τ) : Act τ → Option (Room τ)
  | .add t k => if s.held t = none then some { s with latch := s.latch.add k } else none
  | .done t k => if s.held t = none then some { s with latch := s.latch.done k } else none
  | .decommission t => if s.held t = none then some { s with latch := s.latch.decommission.2 } else none
  | .wait t => if s.held t = none then some { s with held := Function.update s.held t s.latch.wait } else none
  | .receive t =>
    if (s.held t).any s.latch.released then some { s with held := Function.update s.held t none } else none

def run (s : Room τ) : List (Act τ) → Option (Room τ)
  | [] => some s
  | a :: rest => (s.step a).bind (run · rest)

def Quiet (s : Room τ) : Prop := s.latch.pending.isEmpty = true

def Blocked (s : Room τ) (t : τ) : Prop := s.held t ≠ none ∧ s.step (.receive t) = none

end Room

namespace Latch

variable {τ : Type} {a : Act τ} {l l' : Latch} {n : Nat} {k : String}

def Sound (l : Latch) : Prop := l.pending.isEmpty = false → l.armed = true

structure Issued (l : Latch) (n : Nat) : Prop where
  le : n ≤ l.round
  waits : l.released n = false → l.pending.isEmpty = false

inductive Turn (l : Latch) : Act τ → Latch → Prop
  | add (t : τ) (k : String) : Turn l (.add t k) (l.add k)
  | done (t : τ) (k : String) : Turn l (.done t k) (l.done k)
  | decommission (t : τ) : Turn l (.decommission t) l.decommission.2

theorem Turn.sound (h : l.Turn a l') (hl : l.Sound) : l'.Sound := by
  cases h with
  | add t k => exact fun _ => rfl
  | decommission t => exact fun _ => rfl
  | done t k =>
    by_cases hk : k ∈ l.pending
    · rw [done_of_mem hk]
      intro hrest
      simp only [hl (NameSet.isEmpty_of_mem hk), Bool.true_and, Bool.not_eq_true']
      exact hrest
    · rwa [done_of_not_mem hk]

theorem Turn.released (h : l.Turn a l') (hn : l.Issued n) :
    l'.released n = false ↔ l.released n = false ∧ l'.pending.isEmpty = false := by
  have hle := hn.le
  rw [released_eq_false hle]
  cases h with
  | add t k =>
    have hpending : (l.add k).pending.isEmpty = false := NameSet.isEmpty_of_mem (mem_pending_add.mpr (.inl rfl))
    have harmed : (l.add k).armed = true := rfl
    cases ha : l.armed with
    | true =>
      have hround : (l.add k).round = l.round := if_pos ha
      rw [released_eq_false (hround ▸ hle), hround]
      simp [hpending, harmed]
    | false =>
      have hround : (l.add k).round = l.round + 1 := if_neg (by simp [ha])
      rw [released_eq_false (by omega), hround]
      simp only [Bool.false_eq_true, and_false, false_and, iff_false, not_and]
      omega
  | decommission t =>
    have hround : l.decommission.2.round = l.round + 1 := rfl
    have hpending : l.decommission.2.pending.isEmpty = true := rfl
    rw [released_eq_false (by omega), hround, hpending]
    simp only [Bool.true_eq_false, and_false, iff_false, not_and]
    omega
  | done t k =>
    by_cases hk : k ∈ l.pending
    · have hafter : (l.done k).round = l.round := by rw [done_of_mem hk]
      rw [released_eq_false (hafter ▸ hle), hafter, done_of_mem hk]
      simp only [Bool.and_eq_true, Bool.not_eq_true', and_assoc]
    · rw [done_of_not_mem hk, released_eq_false hle]
      exact ⟨fun h => ⟨h, hn.waits ((released_eq_false hle).mpr h)⟩, fun h => h.1⟩

theorem Turn.round_le (h : l.Turn a l') : l.round ≤ l'.round := by
  cases h with
  | add t k => cases ha : l.armed <;> simp [Latch.add, ha]
  | decommission t => exact Nat.le_succ _
  | done t k =>
    by_cases hk : k ∈ l.pending
    · rw [done_of_mem hk]
    · rw [done_of_not_mem hk]

theorem Turn.issued (h : l.Turn a l') (hn : l.Issued n) : l'.Issued n where
  le := Nat.le_trans hn.le h.round_le
  waits hr := ((h.released hn).mp hr).2

end Latch

namespace Room

variable {τ : Type} [DecidableEq τ] {s s' : Room τ} {a : Act τ} {t : τ}

structure Sound (s : Room τ) : Prop where
  latch : s.latch.Sound
  issued : ∀ t n, s.held t = some n → s.latch.Issued n

theorem step_cases (h : s.step a = some s') :
    (∃ l, s.latch.Turn a l ∧ s' = { s with latch := l }) ∨
    (∃ t, a = .wait t ∧ s.held t = none ∧ s' = { s with held := Function.update s.held t s.latch.wait }) ∨
    (∃ t, a = .receive t ∧ (s.held t).any s.latch.released = true ∧
      s' = { s with held := Function.update s.held t none }) := by
  cases a with
  | add t k =>
    obtain ⟨-, hs⟩ := Option.ite_none_right_eq_some.mp h
    obtain rfl := Option.some.inj hs
    exact .inl ⟨_, .add t k, rfl⟩
  | done t k =>
    obtain ⟨-, hs⟩ := Option.ite_none_right_eq_some.mp h
    obtain rfl := Option.some.inj hs
    exact .inl ⟨_, .done t k, rfl⟩
  | decommission t =>
    obtain ⟨-, hs⟩ := Option.ite_none_right_eq_some.mp h
    obtain rfl := Option.some.inj hs
    exact .inl ⟨_, .decommission t, rfl⟩
  | wait t =>
    obtain ⟨hfree, hs⟩ := Option.ite_none_right_eq_some.mp h
    obtain rfl := Option.some.inj hs
    exact .inr (.inl ⟨t, rfl, hfree, rfl⟩)
  | receive t =>
    obtain ⟨hreleased, hs⟩ := Option.ite_none_right_eq_some.mp h
    obtain rfl := Option.some.inj hs
    exact .inr (.inr ⟨t, rfl, hreleased, rfl⟩)

theorem Sound.step (hs : s.Sound) (h : s.step a = some s') : s'.Sound := by
  rcases step_cases h with ⟨l, hturn, rfl⟩ | ⟨t, -, -, rfl⟩ | ⟨t, -, -, rfl⟩
  · exact ⟨hturn.sound hs.latch, fun t n hn => hturn.issued (hs.issued t n hn)⟩
  · refine ⟨hs.latch, fun u n hn => ?_⟩
    dsimp only at hn
    by_cases hu : u = t
    · rw [hu, Function.update_self] at hn
      obtain ⟨hpending, rfl⟩ := Latch.wait_eq_some.mp hn
      exact ⟨Nat.le_refl _, fun _ => hpending⟩
    · rw [Function.update_of_ne hu] at hn
      exact hs.issued u n hn
  · refine ⟨hs.latch, fun u n hn => ?_⟩
    dsimp only at hn
    by_cases hu : u = t
    · rw [hu, Function.update_self] at hn
      cases hn
    · rw [Function.update_of_ne hu] at hn
      exact hs.issued u n hn

theorem blocked_iff : s.Blocked t ↔ ∃ n, s.held t = some n ∧ s.latch.released n = false := by
  unfold Blocked Room.step
  cases ht : s.held t with
  | none => simp
  | some n => simp [ht]

theorem Sound.not_quiet_of_blocked (hs : s.Sound) (h : s.Blocked t) : ¬s.Quiet := by
  obtain ⟨n, hn, hr⟩ := blocked_iff.mp h
  exact Bool.eq_false_iff.mp ((hs.issued t n hn).waits hr)

theorem Sound.blocked_of_same (hs : s.Sound) (hl : s'.latch = s.latch) (hh : s'.held t = s.held t) :
    s'.Blocked t ↔ s.Blocked t ∧ ¬s'.Quiet := by
  have hquiet : s'.Quiet ↔ s.Quiet := by rw [Quiet, Quiet, hl]
  rw [blocked_iff, hl, hh, ← blocked_iff, hquiet]
  exact ⟨fun hb => ⟨hb, hs.not_quiet_of_blocked hb⟩, fun hb => hb.1⟩

theorem Sound.blocked_step (hs : s.Sound) (h : s.step a = some s') (ha : a ≠ .wait t) :
    s'.Blocked t ↔ s.Blocked t ∧ ¬s'.Quiet := by
  rcases step_cases h with ⟨l, hturn, rfl⟩ | ⟨u, rfl, -, rfl⟩ | ⟨u, rfl, hu, rfl⟩
  · rw [blocked_iff, blocked_iff]
    constructor
    · rintro ⟨n, hn, hr⟩
      obtain ⟨hbefore, hpending⟩ := (hturn.released (hs.issued t n hn)).mp hr
      exact ⟨⟨n, hn, hbefore⟩, Bool.eq_false_iff.mp hpending⟩
    · rintro ⟨⟨n, hn, hr⟩, hpending⟩
      exact ⟨n, hn, (hturn.released (hs.issued t n hn)).mpr ⟨hr, Bool.eq_false_iff.mpr hpending⟩⟩
  · have hne : t ≠ u := fun he => ha (congrArg Act.wait he.symm)
    exact hs.blocked_of_same rfl (Function.update_of_ne hne _ _)
  · by_cases hne : t = u
    · subst hne
      -- it has received, which it could not have done while blocked
      have hafter : ¬Room.Blocked { s with held := Function.update s.held t none } t := by simp [blocked_iff]
      exact ⟨fun hb => absurd hb hafter, fun hb => absurd (hb.1.2.symm.trans h) (by simp)⟩
    · exact hs.blocked_of_same rfl (Function.update_of_ne hne _ _)

theorem Sound.blocked_wait (hs : s.Sound) (h : s.step (.wait t) = some s') : s'.Blocked t ↔ ¬s'.Quiet := by
  obtain ⟨-, hs'⟩ := Option.ite_none_right_eq_some.mp h
  obtain rfl := Option.some.inj hs'
  simp only [blocked_iff, Function.update_self, Latch.wait_eq_some]
  constructor
  · rintro ⟨n, ⟨hpending, -⟩, -⟩
    exact Bool.eq_false_iff.mp hpending
  · intro hpending
    -- the ticket is of the round under way, and that is armed as long as keys are pending
    have hne := Bool.eq_false_iff.mpr hpending
    exact ⟨s.latch.round, ⟨hne, rfl⟩, (Latch.released_eq_false (Nat.le_refl _)).mpr ⟨rfl, hs.latch hne⟩⟩

variable {acts before since later : List (Act τ)}

theorem run_append (s : Room τ) (xs ys : List (Act τ)) : s.run (xs ++ ys) = (s.run xs).bind (run · ys) := by
  induction xs generalizing s with
  | nil => rfl
  | cons a rest ih =>
    rw [List.cons_append, run, run]
    cases s.step a with
    | none => rfl
    | some s' => exact ih s'

theorem run_concat : s.run (acts ++ [a]) = some s' ↔ ∃ mid, s.run acts = some mid ∧ mid.step a = some s' := by
  rw [run_append, Option.bind_eq_some_iff]
  simp [run]

omit [DecidableEq τ] in
theorem sound_fresh : Sound ({} : Room τ) where
  latch _ := rfl
  issued _ _ h := by cases h

theorem Sound.run (hs : s.Sound) (h : s.run acts = some s') : s'.Sound := by
  induction acts using List.reverseRecOn generalizing s' with
  | nil => exact Option.some.inj h ▸ hs
  | append_singleton acts a ih =>
    obtain ⟨mid, hmid, hstep⟩ := run_concat.mp h
    exact (ih hmid).step hstep

theorem Sound.not_blocked_run (hs : s.Sound) (h : s.run later = some s') (hw : .wait t ∉ later) (hb : ¬s.Blocked t) :
    ¬s'.Blocked t := by
  induction later using List.reverseRecOn generalizing s' with
  | nil => exact Option.some.inj h ▸ hb
  | append_singleton later a ih =>
    obtain ⟨mid, hmid, hstep⟩ := run_concat.mp h
    have hne : a ≠ .wait t := fun he => hw (he ▸ List.mem_concat_self)
    rw [(hs.run hmid).blocked_step hstep hne]
    exact fun hb' => ih hmid (fun hm => hw (List.mem_append_left _ hm)) hb'.1

theorem Sound.blocked_run (hs : s.Sound) {s₁ s₂ : Room τ} (hwait : s.step (.wait t) = some s₁)
    (h : s₁.run since = some s₂) (hw : .wait t ∉ since) :
    s₂.Blocked t ↔ ∀ l, l <+: since → ∀ s', s₁.run l = some s' → ¬s'.Quiet := by
  induction since using List.reverseRecOn generalizing s₂ with
  | nil =>
    obtain rfl := Option.some.inj h
    rw [hs.blocked_wait hwait]
    constructor
    · rintro hquiet l hl s' hrun
      rw [List.prefix_nil.mp hl] at hrun
      exact Option.some.inj hrun ▸ hquiet
    · exact fun hall => hall [] (List.prefix_refl _) s₁ rfl
  | append_singleton since a ih =>
    obtain ⟨mid, hmid, hstep⟩ := run_concat.mp h
    have hne : a ≠ .wait t := fun he => hw (he ▸ List.mem_concat_self)
    -- once free it stays free, for it does not begin another wait
    rw [((hs.step hwait).run hmid).blocked_step hstep hne, ih hmid fun hm => hw (List.mem_append_left _ hm)]
    simp only [List.prefix_concat_iff]
    constructor
    · rintro ⟨hall, hquiet⟩ l (rfl | hl) s' hrun
      · exact Option.some.inj (h.symm.trans hrun) ▸ hquiet
      · exact hall l hl s' hrun
    · intro hall
      exact ⟨fun l hl => hall l (.inr hl), hall _ (.inl rfl) s₂ h⟩

end Room

def Act.Settles {τ : Type} (k : String) : Act τ → Prop
  | .done _ k' => k' = k
  | .decommission _ => True
  | _ => False

def Room.Spent {τ : Type} (k : String) (acts : List (Act τ)) : Prop :=
  ∀ before u after, acts = before ++ .add u k :: after → ∃ a ∈ after, a.Settles k

namespace Room

variable {τ : Type} [DecidableEq τ] {s s' : Room τ} {acts : List (Act τ)} {a : Act τ} {k : String}

theorem pending_step (h : s.step a = some s') (hk : k ∈ s'.latch.pending) :
    (∃ u, a = .add u k) ∨ k ∈ s.latch.pending ∧ ¬a.Settles k := by
  rcases step_cases h with ⟨l, hturn, rfl⟩ | ⟨u, rfl, -, rfl⟩ | ⟨u, rfl, -, rfl⟩
  · cases hturn with
    | add u k' =>
      rcases Latch.mem_pending_add.mp hk with rfl | hk
      · exact .inl ⟨u, rfl⟩
      · exact .inr ⟨hk, fun hsettles => hsettles⟩
    | done u k' =>
      obtain ⟨hk, hne⟩ := Latch.mem_pending_done.mp hk
      exact .inr ⟨hk, fun he => hne he.symm⟩
    | decommission u => exact absurd hk NameSet.not_mem_empty
  · exact .inr ⟨hk, fun hsettles => hsettles⟩
  · exact .inr ⟨hk, fun hsettles => hsettles⟩

theorem not_mem_of_spent (h : Room.run {} acts = some s) (hk : Spent k acts) : k ∉ s.latch.pending := by
  induction acts using List.reverseRecOn generalizing s with
  | nil => exact Option.some.inj h ▸ NameSet.not_mem_empty
  | append_singleton acts a ih =>
    obtain ⟨mid, hmid, hstep⟩ := run_concat.mp h
    intro hmem
    rcases pending_step hstep hmem with ⟨u, rfl⟩ | ⟨hbefore, hne⟩
    · obtain ⟨a, ha, -⟩ := hk acts u [] rfl
      cases ha
    · refine ih hmid (fun before u after he => ?_) hbefore
      obtain ⟨a', ha', hsettles⟩ := hk before u (after ++ [a]) (by simp [he])
      rcases List.mem_append.mp ha' with ha' | ha'
      · exact ⟨a', ha', hsettles⟩
      · exact absurd (List.mem_singleton.mp ha' ▸ hsettles) hne

theorem step_done_of_not_mem {u : τ} (h : s.step (.done u k) = some s') (hk : k ∉ s.latch.pending) : s' = s := by
  obtain ⟨-, hs'⟩ := Option.ite_none_right_eq_some.mp h
  rw [← Option.some.inj hs', Latch.done_of_not_mem hk]

/-- The waits of a history: one is over iff there has been a moment without pending keys since it began, it
stays over whatever comes, and being done with a key that is not pending changes nothing. -/
structure Faithful (acts : List (Act τ)) (s : Room τ) : Prop where
  over_iff : ∀ before t since, acts = before ++ .wait t :: since → .wait t ∉ since →
    (¬s.Blocked t ↔ ∃ l, l <+: since ∧ ∃ s', Room.run {} (before ++ .wait t :: l) = some s' ∧ s'.Quiet)
  stays : ∀ later s' t, s.run later = some s' → .wait t ∉ later → ¬s.Blocked t → ¬s'.Blocked t
  spent : ∀ k u s', Spent k acts → s.step (.done u k) = some s' → s' = s

theorem run_faithful (h : Room.run {} acts = some s) : Faithful acts s where
  over_iff before t since he hw := by
    subst he
    rw [run_append, Option.bind_eq_some_iff] at h
    obtain ⟨mid, hmid, hrest⟩ := h
    rw [run, Option.bind_eq_some_iff] at hrest
    obtain ⟨s₁, hwait, hsince⟩ := hrest
    have hrun : ∀ l, Room.run {} (before ++ .wait t :: l) = s₁.run l := by
      intro l
      rw [run_append, hmid, Option.bind_some, run, hwait, Option.bind_some]
    rw [(sound_fresh.run hmid).blocked_run hwait hsince hw]
    push Not
    simp only [hrun]
  stays later s' t hlater hw hb := (sound_fresh.run h).not_blocked_run hlater hw hb
  spent k u s' hk hstep := step_done_of_not_mem hstep (not_mem_of_spent h hk)

def relay : List (Act Nat) :=
  [.add 0 "a", .wait 1, .done 0 "b", .done 0 "a", .add 0 "b", .wait 2, .receive 1, .decommission 0, .add 1 "c"]

theorem relay_faithful : ∃ s, Room.run {} relay = some s ∧ Faithful relay s := by
  have hrun : (Room.run {} relay).isSome = true := by decide +kernel
  obtain ⟨s, hs⟩ := Option.isSome_iff_exists.mp hrun
  exact ⟨s, hs, run_faithful hs⟩

end Room

end Compliance
