import Compliance.Proofs.Answers
import Compliance.Proofs.Crew
import Mathlib.Data.List.Induction

namespace Compliance

namespace Worker

variable {w : Worker} {serial : Nat} {i : QueueItem} {m : Move} {moves : List Move} {e : ExecutionError}

theorem perform_fault (h : m.fault = some e) : perform serial i (m :: moves) w = (some e, w) := by
  cases m with
  | fail context => exact congrArg (·, w) h
  | panic text => exact congrArg (·, w) h
  | _ => cases h

theorem performCalls_fault (h : m.fault = some e) : performCalls serial i (m :: moves) w = [] := by
  cases m with
  | fail context => rfl
  | panic text => rfl
  | _ => cases h

theorem perform_reports (keys : List Checksum) (data : RawData) (moves : List Move) :
    perform serial i (keys.map (.report · data) ++ moves) w = perform serial i moves (w.reportEach serial keys data) := by
  induction keys generalizing w with
  | nil => rfl
  | cons k rest ih => exact ih

theorem perform_failures (message : String) (keys : List Checksum) :
    perform serial i (QueueItem.failures message keys) w = (none, w.reportEach serial keys (.ofError message)) := by
  rw [← List.append_nil (QueueItem.failures message keys)]
  exact perform_reports keys (.ofError message) []

theorem perform_spell : perform serial i (i.spell moves) w = perform serial i moves w := by
  induction moves generalizing w with
  | nil => rfl
  | cons m rest ih =>
    rw [QueueItem.spell, List.flatMap_cons, ← QueueItem.spell]
    cases m with
    | reportAll => rw [perform_reports, ih]; rfl
    | fail context => rfl
    | panic text => rfl
    | _ => exact ih

theorem performCalls_reports (keys : List Checksum) (data : RawData) (moves : List Move) :
    performCalls serial i (keys.map (.report · data) ++ moves) w =
      keys.map (fun k => (serial, ⟨k, data⟩)) ++ performCalls serial i moves (w.reportEach serial keys data) := by
  induction keys generalizing w with
  | nil => rfl
  | cons k rest ih => exact congrArg _ ih

theorem performCalls_spell (moves : List Move) :
    performCalls serial i (i.spell moves) w = performCalls serial i moves w := by
  induction moves generalizing w with
  | nil => rfl
  | cons m rest ih =>
    rw [QueueItem.spell, List.flatMap_cons, ← QueueItem.spell]
    cases m with
    | reportAll => rw [performCalls_reports, ih]; rfl
    | fail context => rfl
    | panic text => rfl
    | _ => exact congrArg _ ih

theorem settle_eq (config : Config) : w.settle config serial i =
    (w.wrapUp config serial i).2.reportEach serial (w.wrapUp config serial i).1 (.ofError timeoutMessage) := by
  unfold settle wrapUp
  rw [show (if config.memDebug then w.note .memoryUsage else w) = w.measure config from rfl]
  dsimp only
  by_cases hempty : ((w.measure config).latch serial).pending.isEmpty = true
  · simp only [if_pos hempty]
    rfl
  · by_cases hstop : (w.measure config).stopping = true
    · simp only [if_neg hempty, if_pos hstop]
      rfl
    · simp only [if_neg hempty, if_neg hstop]
      rfl

end Worker

namespace Worker

variable {w : Worker} {serial : Nat} {i : QueueItem} {m : Move}

theorem reportEach_length (n : Nat) (keys : List Checksum) (data : RawData) :
    (w.reportEach n keys data).latches.length = w.latches.length := by
  induction keys generalizing w with
  | nil => rfl
  | cons k rest ih => exact ih.trans (List.length_modify _ _ _)

theorem act_length : (w.act serial i m).latches.length = w.latches.length := by
  cases m with
  | report key data => exact List.length_modify _ _ _
  | reportAll => exact reportEach_length _ _ _
  | late name key data =>
    simp only [act]
    split
    · rfl
    · exact List.length_modify _ _ _
  | _ => rfl

theorem act_invoked : (w.act serial i m).invoked = w.invoked := by
  cases m with
  | reportAll => exact reportEach_invoked _ _ _
  | late name key data =>
    simp only [act]
    split <;> rfl
  | _ => rfl

theorem act_kept {e : String × Nat} (h : e ∈ (w.act serial i m).kept) : e ∈ w.kept ∨ e.2 = serial := by
  cases m with
  | reportAll => exact .inl (by rwa [act, reportEach_kept] at h)
  | retain name => exact (List.mem_cons.mp h).symm.imp_right (congrArg Prod.snd)
  | late name key data =>
    simp only [act] at h
    split at h
    · exact .inl h
    · exact .inl h
  | _ => exact .inl h

theorem callee_of_mem {c : Call} (h : c ∈ w.calls serial i m) : c.1 = serial ∨ ∃ e ∈ w.kept, e.2 = c.1 := by
  cases m with
  | report key data => exact .inl (by simp_all [calls])
  | reportAll =>
    obtain ⟨k, -, rfl⟩ := List.mem_map.mp h
    exact .inl rfl
  | late name key data =>
    simp only [calls] at h
    split at h
    · cases h
    · rename_i n hl
      obtain ⟨before, after, hkept, -⟩ := List.lookup_eq_some_iff.mp hl
      obtain rfl := List.mem_singleton.mp h
      exact .inr ⟨(name, n), by simp [hkept], rfl⟩
  | _ => cases h

theorem exists_wrapUp (w : Worker) (config : Config) (serial : Nat) (i : QueueItem) : ∃ latches events,
    (w.wrapUp config serial i).2 = { w with latches := latches, events := events } ∧ latches.length = w.latches.length := by
  obtain ⟨noted, hmeasure⟩ : ∃ events, w.measure config = { w with events := events } := by
    unfold measure
    split
    · exact ⟨_, rfl⟩
    · exact ⟨w.events, rfl⟩
  unfold wrapUp
  dsimp only
  rw [hmeasure]
  split
  · dsimp only
    split
    · exact ⟨_, _, rfl, rfl⟩
    · exact ⟨_, _, rfl, rfl⟩
  · split
    · exact ⟨_, _, rfl, List.length_set⟩
    · exact ⟨_, _, rfl, List.length_set⟩

end Worker

namespace Crew

variable {s : Crew} {n serial : Nat} {i : QueueItem} {m : Move} {moves : List Move} {settled : Bool} {e : ExecutionError}

def performed (s : Crew) (n serial : Nat) (i : QueueItem) (moves : List Move) (settled : Bool) : Crew :=
  { s with
    manager := { s.manager with worker := (Worker.perform serial i moves s.manager.worker).2 }
    posts := s.posts.set n (((Worker.perform serial i moves s.manager.worker).1.map .failing).getD (.busy serial i [] settled))
    log := s.log ++ (Worker.performCalls serial i moves s.manager.worker).map (serial, ·) }

theorem works_moves (hp : s.posts[n]? = some (.busy serial i moves settled)) :
    s.Works (s.performed n serial i moves settled) := by
  induction moves generalizing s with
  | nil =>
    -- the post is written over with itself
    have hsame : s.performed n serial i [] settled = s := by
      have hset : s.posts.set n (.busy serial i [] settled) = s.posts := by
        apply List.ext_getElem?
        intro k
        by_cases hk : n = k
        · subst hk
          rw [List.getElem?_set_self (List.getElem?_eq_some_iff.mp hp).1, hp]
        · rw [List.getElem?_set_ne hk]
      simp [performed, Worker.perform, Worker.performCalls, hset]
    rw [hsame]
    exact .refl s
  | cons m rest ih =>
    cases hf : m.fault with
    | some e =>
      have hstep : s.step (.move n) = some (s.post n (.failing e)) := by simp only [step, hp, hf]
      have hsame : s.performed n serial i (m :: rest) settled = s.post n (.failing e) := by
        simp [performed, Worker.perform_fault hf, Worker.performCalls_fault hf, post]
      exact hsame ▸ .step rfl hstep
    | none =>
      have hends := Move.fault_eq_none.mp hf
      have hstep : s.step (.move n) = some (s.act n serial i m rest settled) := by simp only [step, hp, hf]
      have hnext : (s.act n serial i m rest settled).posts[n]? = some (.busy serial i rest settled) :=
        List.getElem?_set_self (List.getElem?_eq_some_iff.mp hp).1
      have hsame : s.performed n serial i (m :: rest) settled =
          (s.act n serial i m rest settled).performed n serial i rest settled := by
        simp [performed, act, Worker.perform_cons hends, Worker.performCalls_cons hends]
      exact hsame ▸ (Works.step rfl hstep).trans (ih hnext)

def Gets (s : Crew) (n : Nat) (m : Manager) (p : Post) : Prop :=
  ∃ s', s.Works s' ∧ s'.manager = m ∧ s'.posts[n]? = some p ∧ s'.held = s.held ∧ s'.joining = s.joining ∧
    s'.stopping = s.stopping

theorem Gets.then {m m' : Manager} {p p' : Post} (h : s.Gets n m p)
    (hnext : ∀ s' : Crew, s'.manager = m → s'.posts[n]? = some p → s'.held = s.held → s'.Gets n m' p') : s.Gets n m' p' := by
  obtain ⟨s', hworks, hm, hp, hh, hj, hs⟩ := h
  obtain ⟨s'', hworks', hm', hp', hh', hj', hs'⟩ := hnext s' hm hp hh
  exact ⟨s'', hworks.trans hworks', hm', hp', hh'.trans hh, hj'.trans hj, hs'.trans hs⟩

theorem lt_of_post {p : Post} (hp : s.posts[n]? = some p) : n < s.posts.length := (List.getElem?_eq_some_iff.mp hp).1

theorem gets_moves (hp : s.posts[n]? = some (.busy serial i moves settled)) :
    s.Gets n { s.manager with worker := (Worker.perform serial i moves s.manager.worker).2 }
      (((Worker.perform serial i moves s.manager.worker).1.map .failing).getD (.busy serial i [] settled)) :=
  ⟨_, works_moves hp, rfl, List.getElem?_set_self (lt_of_post hp), rfl, rfl, rfl⟩

theorem gets_on (hp : s.posts[n]? = some (.busy serial i [] true)) (hs : s.manager.stopped = false) :
    s.Gets n s.manager .waiting := by
  have hfinish : s.step (.finish n) = some (s.post n .top) := by simp [step, hp]
  have htop : (s.post n .top).posts[n]? = some .top := List.getElem?_set_self (lt_of_post hp)
  have hlook : (s.post n .top).step (.look n) = some ((s.post n .top).post n .waiting) := by
    simp only [step, htop]
    rw [show (s.post n .top).manager.stopped = false from hs]
    rfl
  exact ⟨_, (Works.step rfl hfinish).trans (.step rfl hlook), rfl, List.getElem?_set_self (lt_of_post htop), rfl, rfl, rfl⟩

theorem gets_failures {message : String} {keys : List Checksum} (hs : s.manager.stopped = false)
    (hp : s.posts[n]? = some (.busy serial i (QueueItem.failures message keys) true)) :
    s.Gets n { s.manager with worker := s.manager.worker.reportEach serial keys (.ofError message) } .waiting := by
  have hmoves := gets_moves hp
  rw [Worker.perform_failures] at hmoves
  refine hmoves.then fun s' hm hp' _ => ?_
  rw [← hm]
  exact gets_on hp' (by rw [hm]; exact hs)

theorem gets_settled (hp : s.posts[n]? = some (.busy serial i [] false)) (hs : s.manager.stopped = false) :
    s.Gets n { s.manager with worker := s.manager.worker.settle s.manager.config serial i } .waiting := by
  have hfinish : s.step (.finish n) = some (s.settle n serial i) := by simp [step, hp]
  have hsettle : s.Gets n (s.settle n serial i).manager (.busy serial i
      (QueueItem.failures timeoutMessage (s.manager.worker.wrapUp s.manager.config serial i).1) true) :=
    ⟨_, .step rfl hfinish, rfl, List.getElem?_set_self (lt_of_post hp), rfl, rfl, rfl⟩
  refine hsettle.then fun s' hm hp' _ => ?_
  have hlast := gets_failures (by rw [hm]; exact hs) hp'
  rw [hm] at hlast
  rw [Worker.settle_eq]
  exact hlast

theorem gets_failed (hp : s.posts[n]? = some (.failing e)) (hh : s.held = some n) :
    s.Gets n { s.manager with
      handle := .ended
      errors := s.manager.errors ++ [e]
      worker := s.manager.worker.note e.event } .ended := by
  have hreport : s.step (.report n) = some (s.fail n e) := by simp only [step, hp]
  refine ⟨_, .step rfl hreport, ?_, List.getElem?_set_self (lt_of_post hp), rfl, rfl, rfl⟩
  simp only [fail, hh, ↓reduceIte]

theorem gets_advance (hh : s.held = some n) (hp : s.posts[n]? = some .waiting) (hr : s.manager.ready = true)
    (hs : s.manager.stopped = false) :
    s.Gets n s.manager.advance (if s.manager.advance.handle = .ended then .ended else .waiting) := by
  obtain ⟨i, rest, hq⟩ := Manager.exists_of_ready hr
  have hlive : s.manager.handle = .live := by
    simp only [Manager.ready, Bool.and_eq_true, beq_iff_eq] at hr
    exact hr.1.1
  have hpick : s.step (.pick n) = some (s.begin n i rest) := by simp only [step, hp, hq]
  have hpost : (s.begin n i rest).posts[n]? = some (.busy s.manager.worker.latches.length i (s.manager.plan i)
      i.propertyError.isSome) := List.getElem?_set_self (lt_of_post hp)
  have hbegin : s.Gets n (s.begin n i rest).manager _ := ⟨_, .step rfl hpick, rfl, hpost, rfl, rfl, rfl⟩
  rw [Manager.advance_eq hq hr]
  cases hfailed : i.propertyError with
  | some message =>
    rw [Worker.execute_failed hfailed]
    simp only [Manager.plan, CollectionRuntime.plan, hfailed, Option.isSome_some] at hbegin
    refine hbegin.then fun s' hm hp' _ => ?_
    have hlast := gets_failures (by rw [hm]; exact hs) hp'
    rw [hm] at hlast
    simpa [begin, Worker.begin, hfailed, hlive] using hlast
  | none =>
    rw [Worker.execute_performed hfailed]
    simp only [Manager.plan, CollectionRuntime.plan, hfailed, Option.isSome_none] at hbegin
    refine hbegin.then fun s₁ hm₁ hp₁ hh₁ => ?_
    have hmoves := gets_moves hp₁
    rw [Worker.perform_spell, hm₁] at hmoves
    simp only [begin, Worker.begin, hfailed] at hmoves
    obtain ⟨error, w', hw'⟩ : ∃ error w', Worker.perform s.manager.worker.latches.length i
        (s.manager.runtime.moves s.manager.worker.latches.length i) ((s.manager.worker.enroll i).invoke i) =
          (error, w') := ⟨_, _, rfl⟩
    rw [hw'] at hmoves ⊢
    refine hmoves.then fun s₂ hm₂ hp₂ hh₂ => ?_
    cases error with
    | some e =>
      have hlast := gets_failed hp₂ (hh₂.trans (hh₁.trans hh))
      rw [hm₂] at hlast
      simpa using hlast
    | none =>
      have hlast := gets_settled hp₂ (by rw [hm₂]; exact hs)
      rw [hm₂] at hlast
      simpa [hlive] using hlast

end Crew

inductive Operation
  | start
  | send (i : QueueItem)
  | advance
  | stop
  | close
  | drop

def Manager.after (m : Manager) : Operation → Manager
  | .start => m.start
  | .send i => (m.send i).2
  | .advance => m.advance
  | .stop => m.stop
  | .close => { m with queueOpen := false }
  | .drop => m.dropResults

namespace Crew

structure Shows (s : Crew) (m : Manager) : Prop where
  manager : s.manager = if m.stopped then m.signal else m
  joining : s.joining = none
  stopping : s.stopping = 0
  unheld : m.handle = .none → s.held = none
  live : m.handle = .live → m.stopped = false ∧ ∃ n, s.held = some n ∧ s.posts[n]? = some .waiting
  ended : m.handle = .ended → ∃ n, s.held = some n ∧ s.posts[n]? = some .ended

variable {s : Crew} {m : Manager} {n : Nat}

theorem Shows.start (h : s.Shows m) : ∃ deeds s', s.run deeds = some s' ∧ s'.Shows m.start := by
  cases hm : m.handle with
  | none =>
    have hstart : s.step .start = some s.spawn := by simp only [step, h.joining, h.unheld hm]
    have htop : s.spawn.posts[s.posts.length]? = some .top := by simp [spawn]
    have hpost : ∀ p, (s.spawn.post s.posts.length p).posts[s.posts.length]? = some p := fun p =>
      List.getElem?_set_self (lt_of_post htop)
    cases hstop : m.stopped with
    | false =>
      have hmanager : s.spawn.manager = m.start := by
        rw [show s.spawn.manager = s.manager.start from rfl, h.manager, hstop]
        rfl
      have hunstopped : m.start.stopped = false ∧ m.start.handle = .live := by simp [Manager.start, hm, hstop]
      have hlook : s.spawn.step (.look s.posts.length) = some (s.spawn.post s.posts.length .waiting) := by
        simp [step, htop, hmanager, hunstopped.1]
      refine ⟨[.start, .look s.posts.length], s.spawn.post s.posts.length .waiting, by simp [run, hstart, hlook],
        ?_, h.joining, h.stopping, ?_, fun _ => ⟨hunstopped.1, s.posts.length, rfl, hpost _⟩, ?_⟩
      · simpa [post, hunstopped.1] using hmanager
      · simp [hunstopped.2]
      · simp [hunstopped.2]
    | true =>
      have hmanager : s.spawn.manager = m.start.signal := by
        rw [show s.spawn.manager = s.manager.start from rfl, h.manager, hstop]
        simp [Manager.start, Manager.signal, hm, hstop]
      have hstopped : m.start.stopped = true ∧ m.start.handle = .ended := by simp [Manager.start, hm, hstop]
      have hlook : s.spawn.step (.look s.posts.length) = some (s.spawn.post s.posts.length .ended) := by
        simp [step, htop, hmanager, Manager.signal]
      refine ⟨[.start, .look s.posts.length], s.spawn.post s.posts.length .ended, by simp [run, hstart, hlook],
        ?_, h.joining, h.stopping, ?_, ?_, fun _ => ⟨s.posts.length, rfl, hpost _⟩⟩
      · simpa [post, hstopped.1] using hmanager
      · simp [hstopped.2]
      · simp [hstopped.2]
  | live =>
    obtain ⟨-, n, hn, -⟩ := h.live hm
    have hsame : m.start = m := by simp [Manager.start, hm]
    rw [hsame]
    exact ⟨[.start], s, by simp [run, step, h.joining, hn], h⟩
  | ended =>
    obtain ⟨n, hn, -⟩ := h.ended hm
    have hsame : m.start = m := by simp [Manager.start, hm]
    rw [hsame]
    exact ⟨[.start], s, by simp [run, step, h.joining, hn], h⟩

theorem Shows.advance (h : s.Shows m) : ∃ deeds s', s.run deeds = some s' ∧ s'.Shows m.advance := by
  cases hr : m.ready with
  | false =>
    rw [Manager.advance_idle hr]
    exact ⟨[], s, rfl, h⟩
  | true =>
    have hlive : m.handle = .live := by
      simp only [Manager.ready, Bool.and_eq_true, beq_iff_eq] at hr
      exact hr.1.1
    obtain ⟨hstop, n, hn, hp⟩ := h.live hlive
    have hsame : s.manager = m := by simpa [hstop] using h.manager
    obtain ⟨s', ⟨deeds, -, hrun⟩, hmanager, hpost, hheld, hjoining, hstopping⟩ :=
      gets_advance hn hp (by rw [hsame]; exact hr) (by rw [hsame]; exact hstop)
    rw [hsame] at hmanager hpost
    obtain ⟨i, rest, hq⟩ := Manager.exists_of_ready hr
    have hafter : m.advance.stopped = false ∧ m.advance.handle ≠ .none := by
      rw [Manager.advance_eq hq hr]
      refine ⟨hstop, ?_⟩
      dsimp only
      split <;> simp [hlive]
    refine ⟨deeds, s', hrun, by simpa [hafter.1] using hmanager, hjoining.trans h.joining, hstopping.trans h.stopping,
      fun hnone => absurd hnone hafter.2, fun hlive' => ⟨hafter.1, n, hheld.trans hn, ?_⟩,
      fun hended => ⟨n, hheld.trans hn, ?_⟩⟩
    · simpa [hlive'] using hpost
    · simpa [hended] using hpost

theorem Shows.stop (h : s.Shows m) : ∃ deeds s', s.run deeds = some s' ∧ s'.Shows m.stop := by
  obtain ⟨s₂, hs₂⟩ : ∃ s₂, s₂ = ({ s with manager := s.manager.signal, stopping := s.stopping + 1 } : Crew).release 0 :=
    ⟨_, rfl⟩
  have hrun : s.run [.signal, .take] = some s₂ := by simp [run, step, h.joining, h.stopping, hs₂]
  have hmanager : s₂.manager = m.stop.signal := by
    rw [hs₂, release, h.manager]
    split <;> rfl
  have hshows : ∀ s' : Crew, s'.manager = s₂.manager → s'.held = none → s'.stopping = 0 → s'.joining = none →
      s'.Shows m.stop := fun s' hm hheld hstopping hjoining =>
    ⟨hm.trans hmanager, hjoining, hstopping, fun _ => hheld, (by cases ·), (by cases ·)⟩
  have hjoin : ∀ (s' : Crew) (n : Nat), s'.joining = some n → s'.posts[n]? = some .ended →
      s'.run [.join] = some { s' with joining := none } := by
    intro s' n hj hp
    simp [run, step, hj, hp]
  cases hm : m.handle with
  | none =>
    refine ⟨_, s₂, hrun, hshows s₂ rfl (by rw [hs₂]; rfl) (by rw [hs₂]; rfl) ?_⟩
    rw [hs₂]
    exact h.unheld hm
  | live =>
    obtain ⟨-, n, hn, hp⟩ := h.live hm
    have hleave : s₂.run [.leave n] = some (s₂.post n .ended) := by
      have hp₂ : s₂.posts[n]? = some .waiting := by rw [hs₂]; exact hp
      simp [run, step, hp₂, hmanager, Manager.signal]
    have hlast := hjoin (s₂.post n .ended) n (by rw [hs₂]; exact hn)
      (List.getElem?_set_self (lt_of_post (by rw [hs₂]; exact hp)))
    refine ⟨[.signal, .take] ++ ([.leave n] ++ [.join]), { s₂.post n .ended with joining := none }, ?_,
      hshows { s₂.post n .ended with joining := none } rfl (by rw [hs₂]; rfl) (by rw [hs₂]; rfl) rfl⟩
    rw [run_append, hrun, Option.bind_some, run_append, hleave, Option.bind_some, hlast]
  | ended =>
    obtain ⟨n, hn, hp⟩ := h.ended hm
    have hlast := hjoin s₂ n (by rw [hs₂]; exact hn) (by rw [hs₂]; exact hp)
    refine ⟨[.signal, .take] ++ [.join], { s₂ with joining := none }, ?_,
      hshows { s₂ with joining := none } rfl (by rw [hs₂]; rfl) (by rw [hs₂]; rfl) rfl⟩
    rw [run_append, hrun, Option.bind_some, hlast]

theorem Shows.operation (h : s.Shows m) (e : Operation) : ∃ deeds s', s.run deeds = some s' ∧ s'.Shows (m.after e) := by
  cases e with
  | start => exact h.start
  | advance => exact h.advance
  | stop => exact h.stop
  | send i =>
    cases hopen : m.queueOpen with
    | false =>
      exact ⟨[], s, rfl, by rwa [Manager.after, Manager.send_closed hopen]⟩
    | true =>
      have hs : s.manager.queueOpen = true := by
        rw [h.manager]
        split <;> exact hopen
      refine ⟨[.send i], { s with manager := (s.manager.send i).2 }, by simp [run, step, hs], ?_⟩
      rw [Manager.after, Manager.send_open hopen]
      refine ⟨?_, h.joining, h.stopping, h.unheld, h.live, h.ended⟩
      rw [h.manager]
      split <;> simp [Manager.send, Manager.signal, hopen]
  | close =>
    refine ⟨[.close], _, rfl, ?_, h.joining, h.stopping, h.unheld, h.live, h.ended⟩
    rw [h.manager]
    split <;> simp_all [Manager.after, Manager.signal]
  | drop =>
    refine ⟨[.drop], _, rfl, ?_, h.joining, h.stopping, h.unheld, h.live, h.ended⟩
    rw [h.manager]
    split <;> simp_all [Manager.after, Manager.signal, Manager.dropResults]

/-- Whatever is done to a new manager, its crew can do. -/
theorem exists_run (config : Config) (runtime : CollectionRuntime) (capacity : Option Nat) (races : List Bool)
    (operations : List Operation) :
    ∃ deeds s, (new config runtime capacity races).run deeds = some s ∧
      s.Shows (operations.foldl Manager.after (.new config runtime capacity races)) := by
  induction operations using List.reverseRecOn with
  | nil => exact ⟨[], _, rfl, rfl, rfl, rfl, fun _ => rfl, (by cases ·), (by cases ·)⟩
  | append_singleton operations e ih =>
    obtain ⟨deeds, s, hrun, hs⟩ := ih
    obtain ⟨later, s', hrun', hs'⟩ := hs.operation e
    refine ⟨deeds ++ later, s', by rw [run_append, hrun, Option.bind_some, hrun'], ?_⟩
    rw [List.foldl_append]
    exact hs'

end Crew

end Compliance
