import Compliance.Proofs.Crew
import Mathlib.Data.List.Induction

/-!
A stop is for good, and a start never makes a second worker. Whoever is alive is held or being joined, so once
a stop has returned all that are left have ended; a worker that is spawned after that sees the stop at the top
of its loop. The same holds once an error is told, for the worker that told it is held until a stop.
-/

namespace Compliance

namespace Crew

variable {s s' : Crew} {d : Deed} {deeds before after : List Deed} {n k : Nat} {p : Post}

def Live (s : Crew) (n : Nat) : Prop := ∃ p, s.posts[n]? = some p ∧ p ≠ .ended

structure Over (s : Crew) : Prop where
  posts : ∀ p ∈ s.posts, p = .ended ∨ p = .top ∧ s.manager.stopped = true
  closed : s.manager.stopped = true ∨ s.held ≠ none

structure Manned (s : Crew) : Prop where
  known : ∀ n, s.Live n → s.held = some n ∨ s.joining = some n
  apart : s.held = none ∨ s.joining = none
  signalled : s.manager.stopped = false → s.stopping = 0 ∧ s.joining = none
  once : s.manager.errors.length ≤ 1
  told : s.manager.errors ≠ [] → s.Over

/-- What is begun, handed over, called for and told stays as it is, and the queue only grows. -/
structure Still (s s' : Crew) : Prop where
  begun : s'.begun = s.begun
  invoked : s'.manager.worker.invoked = s.manager.worker.invoked
  log : s'.log = s.log
  errors : s'.manager.errors = s.manager.errors
  queue : s.manager.queue <+: s'.manager.queue

def Returns (s : Crew) : Deed → Prop
  | .take => s.held = none
  | .join => True
  | _ => False

theorem live_of_set (hn : s.Live n) (hp : s'.posts = s.posts.set n p) (hk : s'.Live k) : s.Live k := by
  obtain ⟨q, hq, hne⟩ := hk
  rw [hp] at hq
  by_cases hkn : n = k
  · exact hkn ▸ hn
  · exact ⟨q, by rwa [List.getElem?_set_ne hkn] at hq, hne⟩

theorem Turn.live (h : s.Turn d s') (hk : s'.Live k) :
    s.Live k ∨ s.held = none ∧ s.joining = none ∧ s'.held = some k := by
  cases h with
  | spawn hj hh =>
    obtain ⟨q, hq, hne⟩ := hk
    rcases Nat.lt_or_ge k s.posts.length with hlt | hge
    · exact .inl ⟨q, by rwa [Crew.spawn, List.getElem?_append_left hlt] at hq, hne⟩
    · have hlen : k < (s.posts ++ [Post.top]).length := (List.getElem?_eq_some_iff.mp hq).1
      simp only [List.length_append, List.length_singleton] at hlen
      obtain rfl : k = s.posts.length := by omega
      exact .inr ⟨hh, hj, rfl⟩
  | keep _ _ => exact .inl hk
  | signal => exact .inl hk
  | take _ _ => exact .inl hk
  | join _ _ => exact .inl hk
  | send i _ => exact .inl hk
  | close => exact .inl hk
  | drop => exact .inl hk
  | look hp => exact .inl (live_of_set ⟨_, hp, by simp⟩ rfl hk)
  | pick hp _ => exact .inl (live_of_set ⟨_, hp, by simp⟩ rfl hk)
  | leave hp _ => exact .inl (live_of_set ⟨_, hp, by simp⟩ rfl hk)
  | act hp _ => exact .inl (live_of_set ⟨_, hp, by simp⟩ rfl hk)
  | halt hp _ => exact .inl (live_of_set ⟨_, hp, by simp⟩ rfl hk)
  | settle hp => exact .inl (live_of_set ⟨_, hp, by simp⟩ rfl hk)
  | finish hp => exact .inl (live_of_set ⟨_, hp, by simp⟩ rfl hk)
  | report hp => exact .inl (live_of_set ⟨_, hp, by simp⟩ rfl hk)

theorem Manned.alone (hs : s.Manned) (hn : s.Live n) (hk : s.Live k) : n = k := by
  rcases hs.known n hn with hn | hn <;> rcases hs.known k hk with hk | hk
  · exact Option.some.inj (hn.symm.trans hk)
  · rcases hs.apart with h | h
    · exact absurd (h.symm.trans hn) (by simp)
    · exact absurd (h.symm.trans hk) (by simp)
  · rcases hs.apart with h | h
    · exact absurd (h.symm.trans hk) (by simp)
    · exact absurd (h.symm.trans hn) (by simp)
  · exact Option.some.inj (hn.symm.trans hk)

theorem Over.not_post (h : s.Over) (hp : s.posts[n]? = some p) (hne : p ≠ .ended) (htop : p ≠ .top) : False := by
  rcases h.posts p (List.mem_of_getElem? hp) with he | ⟨he, -⟩
  · exact hne he
  · exact htop he

theorem Over.of_same (h : s.Over) (hp : s'.posts = s.posts) (hs : s.manager.stopped = true → s'.manager.stopped = true)
    (hc : s'.manager.stopped = true ∨ s'.held ≠ none) : s'.Over where
  posts p hmem := (h.posts p (hp ▸ hmem)).imp_right fun ht => ⟨ht.1, hs ht.2⟩
  closed := hc

theorem Still.refl (s : Crew) : s.Still s := ⟨rfl, rfl, rfl, rfl, List.prefix_refl _⟩

theorem Still.trans {s'' : Crew} (h : s.Still s') (h' : s'.Still s'') : s.Still s'' where
  begun := h'.begun.trans h.begun
  invoked := h'.invoked.trans h.invoked
  log := h'.log.trans h.log
  errors := h'.errors.trans h.errors
  queue := h.queue.trans h'.queue

theorem Over.turn (h : s.Over) (hs : s.manager.stopped = false → s.stopping = 0) (ht : s.Turn d s') :
    s'.Over ∧ s.Still s' := by
  cases ht with
  | spawn hj hh =>
    have hstopped : s.manager.stopped = true := h.closed.resolve_right fun hn => hn hh
    rw [Crew.spawn, Manager.start_eq]
    refine ⟨⟨fun p hp => ?_, .inr (by simp)⟩, rfl, rfl, rfl, rfl, List.prefix_refl _⟩
    rcases List.mem_append.mp hp with hp | hp
    · exact h.posts p hp
    · exact .inr ⟨List.mem_singleton.mp hp, hstopped⟩
  | keep _ _ => exact ⟨h, .refl s⟩
  | signal => exact ⟨h.of_same rfl (fun _ => rfl) (.inl rfl), rfl, rfl, rfl, rfl, List.prefix_refl _⟩
  | take _ hleft =>
    have hstopped : s.manager.stopped = true := by
      by_contra hn
      have := hs (Bool.eq_false_iff.mpr hn)
      omega
    exact ⟨h.of_same rfl id (.inl hstopped), rfl, rfl, rfl, rfl, List.prefix_refl _⟩
  | join _ _ => exact ⟨h.of_same rfl id h.closed, rfl, rfl, rfl, rfl, List.prefix_refl _⟩
  | send i _ => exact ⟨h.of_same rfl id h.closed, rfl, rfl, rfl, rfl, List.prefix_append _ _⟩
  | close => exact ⟨h.of_same rfl id h.closed, rfl, rfl, rfl, rfl, List.prefix_refl _⟩
  | drop => exact ⟨h.of_same rfl id h.closed, rfl, rfl, rfl, rfl, List.prefix_refl _⟩
  | @look n hp =>
    have hstopped : s.manager.stopped = true := by
      rcases h.posts _ (List.mem_of_getElem? hp) with he | ⟨-, ht⟩
      · cases he
      · exact ht
    refine ⟨⟨fun p hmem => ?_, h.closed⟩, rfl, rfl, rfl, rfl, List.prefix_refl _⟩
    rcases List.mem_or_eq_of_mem_set hmem with hmem | rfl
    · exact h.posts p hmem
    · exact .inl (if_pos hstopped)
  | pick hp _ => exact (h.not_post hp (by simp) (by simp)).elim
  | leave hp _ => exact (h.not_post hp (by simp) (by simp)).elim
  | act hp _ => exact (h.not_post hp (by simp) (by simp)).elim
  | halt hp _ => exact (h.not_post hp (by simp) (by simp)).elim
  | settle hp => exact (h.not_post hp (by simp) (by simp)).elim
  | finish hp => exact (h.not_post hp (by simp) (by simp)).elim
  | report hp => exact (h.not_post hp (by simp) (by simp)).elim

theorem Manned.stopped_of_joining (hs : s.Manned) (h : s.joining = some n) : s.manager.stopped = true := by
  by_contra hn
  rw [(hs.signalled (Bool.eq_false_iff.mpr hn)).2] at h
  cases h

theorem Manned.over_of_ended (hs : s.Manned) (hn : s.Live n) (hp : s'.posts = s.posts.set n .ended)
    (hm : s'.manager.stopped = s.manager.stopped) (hh : s'.held = s.held) : s'.Over where
  posts p hmem := by
    refine .inl (by_contra fun hne => ?_)
    obtain ⟨k, hk⟩ := List.mem_iff_getElem?.mp hmem
    obtain rfl : k = n := hs.alone (live_of_set hn hp ⟨p, hk, hne⟩) hn
    obtain ⟨q, hq, -⟩ := hn
    have hlt : k < s.posts.length := (List.getElem?_eq_some_iff.mp hq).1
    rw [hp, List.getElem?_set_self hlt] at hk
    exact hne (Option.some.inj hk).symm
  closed := by
    rw [hm, hh]
    rcases hs.known n hn with h | h
    · exact .inr (by simp [h])
    · exact .inl (hs.stopped_of_joining h)

theorem Manned.of_same (hs : s.Manned) (hlive : ∀ k, s'.Live k → s.Live k) (hheld : s'.held = s.held)
    (hjoining : s'.joining = s.joining) (hstopping : s'.stopping = s.stopping)
    (hstopped : s'.manager.stopped = s.manager.stopped) (herrors : s'.manager.errors = s.manager.errors)
    (hover : s.manager.errors ≠ [] → s'.Over) : s'.Manned where
  known k hk := by
    rw [hheld, hjoining]
    exact hs.known k (hlive k hk)
  apart := by
    rw [hheld, hjoining]
    exact hs.apart
  signalled := by
    rw [hstopped, hstopping, hjoining]
    exact hs.signalled
  once := herrors ▸ hs.once
  told h := hover (herrors ▸ h)

theorem Manned.turn (hs : s.Manned) (ht : s.Turn d s') : s'.Manned := by
  have hover : s.manager.errors ≠ [] → s'.Over := fun he =>
    ((hs.told he).turn (fun h => (hs.signalled h).1) ht).1
  have hlive : ∀ k, s'.Live k → s.Live k ∨ s.held = none ∧ s.joining = none ∧ s'.held = some k := fun k => ht.live
  -- a worker is new only where one is spawned, and then there was none
  have hsame : s.held ≠ none ∨ s'.held = s.held → ∀ k, s'.Live k → s.Live k := by
    intro h k hk
    rcases hlive k hk with hk | ⟨hheld, -, hnew⟩
    · exact hk
    · rcases h with h | h
      · exact absurd hheld h
      · exact absurd (hnew.symm.trans (h.trans hheld)) (by simp)
  cases ht with
  | spawn hj hh =>
    rw [Crew.spawn, Manager.start_eq] at hover hlive ⊢
    refine ⟨fun k hk => ?_, .inr hj, fun h => ⟨(hs.signalled h).1, hj⟩, hs.once, hover⟩
    rcases hlive k hk with hk | ⟨-, -, hnew⟩
    · rcases hs.known k hk with h | h
      · exact absurd (hh.symm.trans h) (by simp)
      · exact absurd (hj.symm.trans h) (by simp)
    · exact .inl hnew
  | keep _ _ => exact hs
  | signal => exact ⟨hs.known, hs.apart, fun h => absurd h (by simp [Manager.signal]), hs.once, hover⟩
  | @take left hj hleft =>
    refine ⟨fun k hk => ?_, .inl rfl, fun h => ?_, hs.once, hover⟩
    · rcases hs.known k hk with h | h
      · exact .inr h
      · exact absurd (hj.symm.trans h) (by simp)
    · have := (hs.signalled h).1
      omega
  | @join n hj hp =>
    have hh : s.held = none := hs.apart.resolve_right (by simp [hj])
    refine ⟨fun k hk => ?_, .inr rfl, fun h => ⟨(hs.signalled h).1, rfl⟩, hs.once, hover⟩
    rcases hs.known k hk with h | h
    · exact absurd (hh.symm.trans h) (by simp)
    · obtain rfl : n = k := Option.some.inj (hj.symm.trans h)
      obtain ⟨q, hq, hne⟩ := hk
      exact absurd (Option.some.inj (hq.symm.trans hp)) hne
  | @report n e hp =>
    have hn : s.Live n := ⟨_, hp, by simp⟩
    -- an error told before would have ended every worker, this one included
    have hnone : s.manager.errors = [] := by
      by_contra he
      exact (hs.told he).not_post hp (by simp) (by simp)
    refine ⟨fun k hk => hs.known k (hsame (.inr rfl) k hk), hs.apart, hs.signalled, ?_, fun _ => ?_⟩
    · simp [Crew.fail, hnone]
    · exact hs.over_of_ended hn rfl rfl rfl
  | _ => exact hs.of_same (hsame (.inr rfl)) rfl rfl rfl rfl rfl hover

theorem manned_new (config : Config) (runtime : CollectionRuntime) (capacity : Option Nat) (races : List Bool) :
    (new config runtime capacity races).Manned where
  known n hn := by
    obtain ⟨p, hp, -⟩ := hn
    cases hp
  apart := .inl rfl
  signalled _ := ⟨rfl, rfl⟩
  once := Nat.zero_le 1
  told h := absurd rfl h

theorem Manned.run (hs : s.Manned) (h : s.run deeds = some s') : s'.Manned :=
  run_invariant h hs fun _ _ _ _ hs ht => hs.turn ht

theorem Over.run (ho : s.Over) (hs : s.Manned) (h : s.run deeds = some s') : (∀ n, .pick n ∉ deeds) ∧ s.Still s' := by
  have hall : s'.Over ∧ (∀ n, .pick n ∉ deeds) ∧ s.Still s' := by
    induction deeds using List.reverseRecOn generalizing s' with
    | nil => exact ⟨Option.some.inj h ▸ ho, by simp, Option.some.inj h ▸ .refl s⟩
    | append_singleton deeds d ih =>
      obtain ⟨mid, hmid, hstep⟩ := run_concat.mp h
      obtain ⟨hover, hpick, hstill⟩ := ih hmid
      have hturn := turn_of_step hstep
      obtain ⟨hover', hstill'⟩ := hover.turn (fun hn => ((hs.run hmid).signalled hn).1) hturn
      refine ⟨hover', fun n hmem => ?_, hstill.trans hstill'⟩
      rcases List.mem_append.mp hmem with hmem | hmem
      · exact hpick n hmem
      · obtain rfl := List.mem_singleton.mp hmem
        cases hturn with
        | pick hp _ => exact hover.not_post hp (by simp) (by simp)
  exact hall.2

theorem Manned.over_of_returns (hs : s.Manned) (ht : s.Turn d s') (hr : s.Returns d) : s'.Over := by
  have hend : s'.held = none → s'.joining = none → ∀ p ∈ s'.posts, p = .ended := by
    intro hheld hjoining p hp
    by_contra hne
    obtain ⟨n, hn⟩ := List.mem_iff_getElem?.mp hp
    rcases (hs.turn ht).known n ⟨p, hn, hne⟩ with h | h
    · exact absurd (hheld.symm.trans h) (by simp)
    · exact absurd (hjoining.symm.trans h) (by simp)
  cases ht with
  | @take left hj hleft =>
    have hheld : s.held = none := hr
    refine ⟨fun p hp => .inl (hend rfl hheld p hp), .inl ?_⟩
    by_contra hn
    have := (hs.signalled (Bool.eq_false_iff.mpr hn)).1
    omega
  | join hj hp =>
    have hheld : s.held = none := hs.apart.resolve_right (by simp [hj])
    exact ⟨fun p hp => .inl (hend hheld rfl p hp), .inl (hs.stopped_of_joining hj)⟩
  | _ => exact hr.elim

/-- At most one worker is alive and at most one error is told, a start changes nothing while a worker is held,
and once a stop has returned no item is begun, whatever else is done. -/
structure Lasting (config : Config) (runtime : CollectionRuntime) (capacity : Option Nat) (races : List Bool)
    (deeds : List Deed) (s : Crew) : Prop where
  alone : ∀ n k, s.Live n → s.Live k → n = k
  keep : s.held ≠ none → s.step .start = some s
  stops : ∀ before d after mid, deeds = before ++ d :: after → (new config runtime capacity races).run before = some mid →
    mid.Returns d → (∀ n, .pick n ∉ after) ∧ mid.Still s
  once : s.manager.errors.length ≤ 1

theorem run_lasting {config : Config} {runtime : CollectionRuntime} {capacity : Option Nat} {races : List Bool}
    (h : (new config runtime capacity races).run deeds = some s) : Lasting config runtime capacity races deeds s where
  alone n k := ((manned_new config runtime capacity races).run h).alone
  keep hheld := by
    have hs := (manned_new config runtime capacity races).run h
    obtain ⟨n, hn⟩ := Option.ne_none_iff_exists'.mp hheld
    have hj : s.joining = none := hs.apart.resolve_left hheld
    simp only [step, hn, hj]
  stops before d after mid he hmid hr := by
    have hs := (manned_new config runtime capacity races).run hmid
    rw [he, run_append, hmid, Option.bind_some] at h
    obtain ⟨mid', hstep, hafter⟩ := Option.bind_eq_some_iff.mp h
    have hturn := turn_of_step hstep
    have hstill : mid.Still mid' := by
      cases hturn with
      | take _ _ => exact ⟨rfl, rfl, rfl, rfl, List.prefix_refl _⟩
      | join _ _ => exact ⟨rfl, rfl, rfl, rfl, List.prefix_refl _⟩
      | _ => exact hr.elim
    obtain ⟨hpick, hstill'⟩ := (hs.over_of_returns hturn hr).run (hs.turn hturn) hafter
    exact ⟨hpick, hstill.trans hstill'⟩
  once := ((manned_new config runtime capacity races).run h).once

def tornRuntime : Runtime :=
  .ofList [("first", { run := [.report "a" {}, .report "b" {}] }), ("second", { run := [.fail ["lost"]] })]

def tornDeeds : List Deed := [
  .start, .send { code := { id := "first", entrypoints := ["a", "b"] } }, .send { code := { id := "second" } },
  .start, .look 0, .pick 0, .move 0, .signal, .start, .take, .move 0, .finish 0, .finish 0, .look 0, .join, .start,
  .start, .look 1, .signal, .take, .join, .start, .signal, .send { code := { id := "third" } }]

theorem tornDeeds_lasting : ∃ s, (new {} tornRuntime none [false]).run tornDeeds = some s ∧
    Lasting {} tornRuntime none [false] tornDeeds s ∧ s.begun.map (·.code.id) = ["first"] ∧
    s.manager.queue.map (·.code.id) = ["second", "third"] := by
  have hids : ((new {} tornRuntime none [false]).run tornDeeds).map
      (fun s => (s.begun.map (·.code.id), s.manager.queue.map (·.code.id))) = some (["first"], ["second", "third"]) := by
    decide +kernel
  obtain ⟨s, hs, hends⟩ := Option.map_eq_some_iff.mp hids
  obtain ⟨hbegun, hqueue⟩ := Prod.mk.inj hends
  exact ⟨s, hs, run_lasting hs, hbegun, hqueue⟩

end Crew

end Compliance
