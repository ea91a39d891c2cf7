import Compliance.Proofs.Steady

namespace Compliance

def Deed.sent : Deed → Option QueueItem
  | .send i => some i
  | _ => none

namespace Crew

variable {runtime : CollectionRuntime} {s s' : Crew} {d : Deed} {deeds : List Deed} {n : Nat} {p : Post} {e : ExecutionError}

theorem Turn.queued (h : s.Turn d s') : s'.begun ++ s'.manager.queue = s.begun ++ s.manager.queue ++ d.sent.toList := by
  cases h with
  | spawn _ _ =>
    rw [Crew.spawn, Manager.start_eq]
    simp [Deed.sent]
  | send i _ => simp [Deed.sent]
  | pick _ hq => simp [Crew.begin, hq, Deed.sent]
  | _ => simp [Deed.sent, Manager.signal, release, Manager.dropResults, Crew.post, Crew.act, Crew.settle, Crew.fail]

theorem run_queued (h : s.run deeds = some s') :
    s'.begun ++ s'.manager.queue = s.begun ++ s.manager.queue ++ deeds.filterMap Deed.sent := by
  induction deeds generalizing s with
  | nil => simp [Option.some.inj h]
  | cons d rest ih =>
    obtain ⟨mid, hmid, hrest⟩ := run_cons.mp h
    rw [ih hrest, (turn_of_step hmid).queued, List.filterMap_cons]
    cases d.sent <;> simp

structure Heard (s : Crew) : Prop where
  serving : s.manager.worker.Serving
  held : s.manager.worker.outlet.held = s.log.map (·.2.2)

theorem Heard.turn (hh : s.Heard) (hs : s.Steady runtime) (hd : d ≠ .signal) (hdrop : d ≠ .drop) (ht : s.Turn d s') :
    s'.Heard := by
  cases ht with
  | spawn _ _ =>
    rw [Crew.spawn, Manager.start_eq]
    exact ⟨hh.serving, hh.held⟩
  | signal => exact absurd rfl hd
  | drop => exact absurd rfl hdrop
  | @pick n i rest _ _ =>
    have hbegin : (s.manager.worker.begin i).Serving ∧ (s.manager.worker.begin i).outlet = s.manager.worker.outlet := by
      unfold Worker.begin
      split
      · exact ⟨hh.serving.enroll i, rfl⟩
      · exact ⟨(hh.serving.enroll i).invoke i, rfl⟩
    exact ⟨hbegin.1, (congrArg Outlet.held hbegin.2).trans hh.held⟩
  | @act n serial i m rest settled hp _ =>
    have hlt : serial < s.manager.worker.latches.length := hs.booked.serials ▸ (hs.stands hp).2.2.2.serial_lt
    have hact := hh.serving.act (i := i) hlt m
    exact ⟨hact.serving, by rw [Crew.act, hact.held, hh.held]; simp⟩
  | @settle n serial i _ =>
    obtain ⟨latches, events, hw, hlength⟩ := s.manager.worker.exists_wrapUp s.manager.config serial i
    unfold Crew.settle
    rw [hw]
    exact ⟨⟨hh.serving.stopping, hh.serving.stopsAtPause, hh.serving.isOpen, hlength ▸ hh.serving.kept⟩, hh.held⟩
  | @report n e _ => exact ⟨hh.serving.note e.event, hh.held⟩
  | _ => exact ⟨hh.serving, hh.held⟩

theorem Heard.run (hh : s.Heard) (hs : s.Steady runtime) (hstop : .signal ∉ deeds) (hdrop : .drop ∉ deeds)
    (h : s.run deeds = some s') : s'.Heard := by
  have hboth : s'.Steady runtime ∧ s'.Heard := by
    refine run_invariant (P := fun s => s.Steady runtime ∧ s.Heard) h ⟨hs, hh⟩ fun d hd s s' ⟨hs, hh⟩ ht => ?_
    have hsignal : d ≠ .signal := ne_of_mem_of_not_mem hd hstop
    exact ⟨hs.turn hsignal ht, hh.turn hs hsignal (ne_of_mem_of_not_mem hd hdrop) ht⟩
  exact hboth.2

/-- Until its worker is told of something new, nothing more comes of the crew. -/
def Idle (s : Crew) : Prop := ∀ d, d.isWork = true → s.step d = none

theorem Steady.works (hs : s.Steady runtime) (h : s.Works s') : s'.Steady runtime := by
  obtain ⟨deeds, hwork, hrun⟩ := h
  refine hs.run (fun hstop => ?_) hrun
  cases hwork _ hstop

def next (s : Crew) : Post → Deed
  | .top => .look 0
  | .waiting => if s.manager.queue.isEmpty then .leave 0 else .pick 0
  | .busy _ _ (_ :: _) _ => .move 0
  | .busy _ _ [] _ => .finish 0
  | .failing _ => .report 0
  | .ended => .look 0

theorem Steady.next_of_turn (hs : s.Steady runtime) (hd : d.isWork = true) (ht : s.Turn d s') :
    ∃ p, s.posts = [p] ∧ d = s.next p := by
  have hpost : ∀ {n : Nat} {q : Post}, s.posts[n]? = some q → (n = 0 → d = s.next q) → ∃ p, s.posts = [p] ∧ d = s.next p := by
    intro n q hq hnext
    obtain ⟨hn, hposts, -⟩ := hs.stands hq
    exact ⟨q, hposts, hnext hn⟩
  cases ht with
  | look hq => exact hpost hq (congrArg Deed.look)
  | pick hq hqueue => exact hpost hq fun hn => by simp [next, hqueue, hn]
  | leave hq hend =>
    obtain ⟨hqueue, -⟩ := hend.resolve_left (by simp [hs.booked.stopped])
    exact hpost hq fun hn => by simp [next, hqueue, hn]
  | act hq _ => exact hpost hq (congrArg Deed.move)
  | halt hq _ => exact hpost hq (congrArg Deed.move)
  | settle hq => exact hpost hq (congrArg Deed.finish)
  | finish hq => exact hpost hq (congrArg Deed.finish)
  | report hq => exact hpost hq (congrArg Deed.report)
  | _ => cases hd

theorem Steady.idle (hs : s.Steady runtime) (hp : s.posts[0]? = some p)
    (h : p = .ended ∨ p = .waiting ∧ s.manager.queue = [] ∧ s.manager.queueOpen = true) : s.Idle := by
  intro d hd
  by_contra hsome
  obtain ⟨s', hs'⟩ := Option.ne_none_iff_exists'.mp hsome
  obtain ⟨q, hposts, rfl⟩ := hs.next_of_turn hd (turn_of_step hs')
  obtain rfl : q = p := by simpa [hposts] using hp
  rcases h with rfl | ⟨rfl, hqueue, hopen⟩
  · have hturn : s.Turn (.look 0) s' := turn_of_step hs'
    cases hturn with
    | look hq => simp [hp] at hq
  · have hturn : s.Turn (.leave 0) s' := by simpa [next, hqueue] using turn_of_step hs'
    cases hturn with
    | leave _ hend => simp [hs.booked.stopped, hopen] at hend

theorem Idle.ended_or_waiting (hi : s.Idle) (hp : s.posts[n]? = some p) : p = .ended ∨ p = .waiting ∧ s.manager.queue = [] := by
  have hnone : ∀ {d : Deed} {s' : Crew}, d.isWork = true → ¬s.Turn d s' := by
    intro d s' hd ht
    exact absurd ((step_of_turn ht).symm.trans (hi d hd)) (by simp)
  cases p with
  | top => exact absurd (.look hp) (hnone rfl)
  | waiting =>
    cases hq : s.manager.queue with
    | nil => exact .inr ⟨rfl, rfl⟩
    | cons i rest => exact absurd (.pick hp hq) (hnone rfl)
  | busy serial i moves settled =>
    cases moves with
    | nil =>
      cases settled with
      | true => exact absurd (.finish hp) (hnone rfl)
      | false => exact absurd (.settle hp) (hnone rfl)
    | cons m rest =>
      cases hf : m.fault with
      | none => exact absurd (.act hp hf) (hnone rfl)
      | some e => exact absurd (.halt hp hf) (hnone rfl)
  | failing e => exact absurd (.report hp) (hnone rfl)
  | ended => exact .inl rfl

theorem exists_rest (hstop : s.manager.stopped = false) (hheld : s.held = some n) (hp : s.posts[n]? = some p) :
    ∃ s', s.Works s' ∧ s'.manager.queue = s.manager.queue ∧
      (s'.posts[n]? = some .ended ∨ s'.posts[n]? = some .waiting) := by
  cases p with
  | top =>
    have hlook : s.step (.look n) = some (s.post n .waiting) := by simp [step, hp, hstop]
    exact ⟨_, .step rfl hlook, rfl, .inr (List.getElem?_set_self (lt_of_post hp))⟩
  | waiting => exact ⟨s, .refl s, rfl, .inr hp⟩
  | ended => exact ⟨s, .refl s, rfl, .inl hp⟩
  | failing e =>
    obtain ⟨s', hworks, hm, hp', -⟩ := gets_failed hp hheld
    exact ⟨s', hworks, by rw [hm], .inl hp'⟩
  | busy serial i moves settled =>
    obtain ⟨s₁, hworks, hm, hp₁, hheld₁, -⟩ := gets_moves hp
    have hstop₁ : s₁.manager.stopped = false := by rw [hm]; exact hstop
    cases herror : (Worker.perform serial i moves s.manager.worker).1 with
    | some e =>
      rw [herror] at hp₁
      obtain ⟨s₂, hworks', hm', hp₂, -⟩ := gets_failed hp₁ (hheld₁.trans hheld)
      exact ⟨s₂, hworks.trans hworks', by rw [hm', hm], .inl hp₂⟩
    | none =>
      rw [herror] at hp₁
      cases settled with
      | true =>
        obtain ⟨s₂, hworks', hm', hp₂, -⟩ := gets_on hp₁ hstop₁
        exact ⟨s₂, hworks.trans hworks', by rw [hm', hm], .inr hp₂⟩
      | false =>
        obtain ⟨s₂, hworks', hm', hp₂, -⟩ := gets_settled hp₁ hstop₁
        exact ⟨s₂, hworks.trans hworks', by rw [hm', hm], .inr hp₂⟩

theorem Steady.exists_idle (hs : s.Steady runtime) (hp : s.posts[0]? = some .waiting) : ∃ s', s.Works s' ∧ s'.Idle := by
  obtain ⟨queue, hqueue⟩ : ∃ queue, s.manager.queue = queue := ⟨_, rfl⟩
  induction queue generalizing s with
  | nil =>
    cases hopen : s.manager.queueOpen with
    | true => exact ⟨s, .refl s, hs.idle hp (.inr ⟨rfl, hqueue, hopen⟩)⟩
    | false =>
      have hleave : s.step (.leave 0) = some (s.post 0 .ended) := step_of_turn (.leave hp (.inr ⟨hqueue, hopen⟩))
      have hworks : s.Works (s.post 0 .ended) := .step rfl hleave
      exact ⟨_, hworks, (hs.works hworks).idle (List.getElem?_set_self (lt_of_post hp)) (.inl rfl)⟩
  | cons i rest ih =>
    have hpick : s.Works (s.begin 0 i rest) := .step rfl (step_of_turn (.pick hp hqueue))
    have hbusy := List.getElem?_set_self (a := Post.busy s.manager.worker.latches.length i (s.manager.plan i)
      i.propertyError.isSome) (lt_of_post hp)
    have hs' := hs.works hpick
    obtain ⟨s', hrest, hqueue', hends⟩ := exists_rest hs'.booked.stopped (hs'.stands hbusy).2.2.1 hbusy
    have hworks := hpick.trans hrest
    rcases hends with hended | hwaiting
    · exact ⟨s', hworks, (hs.works hworks).idle hended (.inl rfl)⟩
    · obtain ⟨s'', hworks', hidle⟩ := ih (hs.works hworks) hwaiting hqueue'
      exact ⟨s'', hworks.trans hworks', hidle⟩

theorem Steady.comes (hs : s.Steady runtime) : ∃ s', s.Works s' ∧ s'.Idle := by
  cases hs with
  | unmanned hb hposts =>
    refine ⟨s, .refl s, fun d hd => ?_⟩
    cases d with
    | look n => simp [step, hposts]
    | pick n => simp [step, hposts]
    | leave n => simp [step, hposts]
    | move n => simp [step, hposts]
    | finish n => simp [step, hposts]
    | report n => simp [step, hposts]
    | _ => cases hd
  | @manned p hb hposts hheld hstands =>
    have hs : s.Steady runtime := .manned hb hposts hheld hstands
    obtain ⟨s', hworks, -, hends⟩ := exists_rest (p := p) hb.stopped hheld (by rw [hposts]; rfl)
    rcases hends with hended | hwaiting
    · exact ⟨s', hworks, (hs.works hworks).idle hended (.inl rfl)⟩
    · obtain ⟨s'', hworks', hidle⟩ := (hs.works hworks).exists_idle hwaiting
      exact ⟨s'', hworks.trans hworks', hidle⟩

theorem Steady.clean_dropLast (hs : s.Steady runtime) : ∀ i ∈ s.begun.zipIdx.dropLast, runtime.fault i = none := by
  have hlast : ∀ earlier i, s.begun = earlier ++ [i] → (∀ j ∈ earlier.zipIdx, runtime.fault j = none) →
      ∀ j ∈ s.begun.zipIdx.dropLast, runtime.fault j = none := by
    intro earlier i hbegun hclean
    rwa [hbegun, zipIdx_concat, List.dropLast_concat]
  have hclean : s.Sound runtime → ∀ j ∈ s.begun.zipIdx.dropLast, runtime.fault j = none := fun h j hj =>
    h.clean j (List.dropLast_subset _ hj)
  cases hs with
  | unmanned _ _ _ hbegun => simp [hbegun]
  | manned _ _ _ hstands =>
    cases hstands with
    | top h => exact hclean h
    | waiting h => exact hclean h
    | asking hbegun hearlier => exact hlast _ _ hbegun hearlier
    | answering h => exact hclean h
    | failing _ hf =>
      obtain ⟨earlier, i, hbegun, hearlier, -⟩ := hf
      exact hlast earlier i hbegun hearlier
    | left h => exact hclean h
    | failed _ hf =>
      obtain ⟨earlier, i, hbegun, hearlier, -⟩ := hf
      exact hlast earlier i hbegun hearlier

theorem Fallen.upTo (h : s.Fallen runtime e) (later : List QueueItem) :
    s.begun.zipIdx = runtime.upTo (s.begun ++ later).zipIdx ∧
      (s.begun ++ later).zipIdx.findSome? runtime.fault = some e := by
  obtain ⟨earlier, i, hbegun, hclean, hfault, -⟩ := h
  rw [List.zipIdx_append, hbegun, zipIdx_concat, List.append_assoc, List.singleton_append]
  refine ⟨(CollectionRuntime.upTo_fault hclean (by simp [hfault])).symm, ?_⟩
  simp [List.findSome?_append, List.findSome?_eq_none_iff.mpr hclean, hfault]

theorem Steady.errors (hs : s.Steady runtime) : s.manager.errors = [] ∨ ∃ e, s.manager.errors = [e] ∧ s.Fallen runtime e := by
  cases hs with
  | unmanned _ _ _ _ herrors => exact .inl herrors
  | manned _ _ _ hstands =>
    cases hstands with
    | top h => exact .inl h.errors
    | waiting h => exact .inl h.errors
    | asking _ _ herrors => exact .inl herrors
    | answering h => exact .inl h.errors
    | failing herrors => exact .inl herrors
    | left h => exact .inl h.errors
    | failed herrors hf => exact .inr ⟨_, herrors, hf⟩

theorem Steady.lives (hs : s.Steady runtime) (hended : .ended ∈ s.posts)
    (hclean : ∀ i ∈ s.begun.zipIdx, runtime.fault i = none) :
    s.manager.queue = [] ∧ s.manager.queueOpen = false := by
  obtain ⟨n, hn⟩ := List.mem_iff_getElem?.mp hended
  cases (hs.stands hn).2.2.2 with
  | left _ hq ho => exact ⟨hq, ho⟩
  | failed _ hf =>
    obtain ⟨earlier, i, hbegun, -, hfault, -⟩ := hf
    exact absurd ((hclean (i, earlier.length) (by simp [hbegun, zipIdx_concat])).symm.trans hfault) (by simp)

theorem Steady.rest (hs : s.Steady runtime) (hi : s.Idle) (hheld : s.held ≠ none) :
    s.begun.zipIdx = runtime.upTo (s.begun ++ s.manager.queue).zipIdx ∧
      s.manager.errors = ((s.begun ++ s.manager.queue).zipIdx.findSome? runtime.fault).toList := by
  have hsound : s.Sound runtime → s.manager.queue = [] →
      s.begun.zipIdx = runtime.upTo (s.begun ++ s.manager.queue).zipIdx ∧
        s.manager.errors = ((s.begun ++ s.manager.queue).zipIdx.findSome? runtime.fault).toList := by
    intro h hq
    have hall : runtime.upTo s.begun.zipIdx = s.begun.zipIdx := by
      have hclean : runtime.upTo (s.begun.zipIdx ++ []) = s.begun.zipIdx ++ runtime.upTo [] :=
        CollectionRuntime.upTo_clean h.clean
      simpa [CollectionRuntime.upTo] using hclean
    rw [hq, List.append_nil, hall, List.findSome?_eq_none_iff.mpr h.clean]
    exact ⟨rfl, h.errors⟩
  cases hs with
  | unmanned _ _ hnone => exact absurd hnone hheld
  | @manned p _ hposts _ hstands =>
    have hp : s.posts[0]? = some p := by
      rw [hposts]
      rfl
    rcases hi.ended_or_waiting hp with rfl | ⟨rfl, hq⟩
    · cases hstands with
      | left h hq _ => exact hsound h hq
      | failed herrors hf =>
        obtain ⟨hupTo, hfind⟩ := hf.upTo s.manager.queue
        exact ⟨hupTo, by rw [herrors, hfind]; rfl⟩
    · cases hstands with
      | waiting h => exact hsound h hq

/-- The items begun are those sent, in order, until the first that fails, and its error is the only one. -/
structure Sequenced (config : Config) (runtime : CollectionRuntime) (capacity : Option Nat) (races : List Bool)
    (deeds : List Deed) (s : Crew) : Prop where
  queued : deeds.filterMap Deed.sent = s.begun ++ s.manager.queue
  begun : s.begun.zipIdx <+: runtime.upTo (deeds.filterMap Deed.sent).zipIdx
  invoked : s.manager.worker.invoked = invocations s.begun
  errors : s.manager.errors = [] ∨ s.begun.zipIdx = runtime.upTo (deeds.filterMap Deed.sent).zipIdx ∧
    ∃ e, (deeds.filterMap Deed.sent).zipIdx.findSome? runtime.fault = some e ∧ s.manager.errors = [e]
  fallen : ∀ e ∈ s.manager.errors, s.Fallen runtime e
  lives : (∀ i ∈ s.begun.zipIdx, runtime.fault i = none) → .ended ∈ s.posts →
    s.manager.queue = [] ∧ s.manager.queueOpen = false
  delivered : .drop ∉ deeds → s.manager.worker.outlet.held = s.log.map (·.2.2)
  undropped : ∃ s', (new config runtime capacity races).run (deeds.filter (!·.isDrop)) = some s' ∧ s.muted = s'.muted
  single : ∀ d d' t t', d.isWork = true → d'.isWork = true → s.step d = some t → s.step d' = some t' → d = d'
  comes : ∃ s', s.Works s' ∧ s'.Idle
  idle : s.Idle → s.held ≠ none → s.begun.zipIdx = runtime.upTo (deeds.filterMap Deed.sent).zipIdx ∧
    s.manager.errors = ((deeds.filterMap Deed.sent).zipIdx.findSome? runtime.fault).toList

theorem run_sequenced {config : Config} {capacity : Option Nat} {races : List Bool}
    (h : (new config runtime capacity races).run deeds = some s) (hstop : .signal ∉ deeds) :
    Sequenced config runtime capacity races deeds s := by
  have hs : s.Steady runtime := (steady_new config runtime capacity races).run hstop h
  have hqueued : deeds.filterMap Deed.sent = s.begun ++ s.manager.queue := by
    rw [run_queued h]
    rfl
  exact {
    queued := hqueued
    begun := by
      rw [hqueued, List.zipIdx_append]
      exact CollectionRuntime.prefix_upTo hs.clean_dropLast
    invoked := hs.booked.invoked
    errors := hs.errors.imp_right fun ⟨e, herrors, hf⟩ =>
      have hupTo := hqueued ▸ hf.upTo s.manager.queue
      ⟨hupTo.1, e, hupTo.2, herrors⟩
    fallen := by
      intro e he
      rcases hs.errors with hnone | ⟨e', herrors, hf⟩
      · simp [hnone] at he
      · rw [herrors] at he
        exact List.mem_singleton.mp he ▸ hf
    lives := fun hclean hended => hs.lives hended hclean
    delivered := fun hdrop =>
      (Heard.run ⟨(Manager.Serving.new config runtime capacity races).worker, rfl⟩
        (steady_new config runtime capacity races) hstop hdrop h).held
    undropped := exists_run_undropped rfl h
    single := by
      intro d d' t t' hd hd' ht ht'
      obtain ⟨p, hp, rfl⟩ := hs.next_of_turn hd (turn_of_step ht)
      obtain ⟨p', hp', rfl⟩ := hs.next_of_turn hd' (turn_of_step ht')
      rw [(List.cons.inj (hp.symm.trans hp')).1]
    comes := hs.comes
    idle := hqueued ▸ hs.rest }

def brokenRuntime : CollectionRuntime where
  script
    | 2, _ => { construct := [.report "a" {}], run := [.panic (some "lost")] }
    | _, _ => { run := [.report "a" {}] }

def brokenDeeds : List Deed := [
  .send { code := { id := "first", entrypoints := ["a", "b"] } }, .start, .look 0, .pick 0, .move 0,
  .send { code := { id := "second", entrypoints := ["c"] }, properties := .ofList [("p", .ofError "none")] },
  .send { code := { id := "first", entrypoints := ["a", "b"] } }, .finish 0, .move 0, .finish 0, .look 0, .pick 0, .drop,
  .move 0, .finish 0, .look 0, .pick 0, .move 0, .move 0, .report 0, .send { code := { id := "fourth" } }]

theorem brokenDeeds_sequenced : ∃ s, (new {} brokenRuntime none []).run brokenDeeds = some s ∧ .signal ∉ brokenDeeds ∧
    Sequenced {} brokenRuntime none [] brokenDeeds s ∧ s.begun.map (·.code.id) = ["first", "second", "first"] ∧
    s.manager.worker.invoked.map Prod.fst = ["first", "first"] ∧ s.manager.errors = [.panicked "lost"] := by
  have hends : ((new {} brokenRuntime none []).run brokenDeeds).map
      (fun s => (s.begun.map (·.code.id), s.manager.worker.invoked.map Prod.fst, s.manager.errors)) =
        some (["first", "second", "first"], ["first", "first"], [.panicked "lost"]) := by
    decide +kernel
  have hstop : .signal ∉ brokenDeeds := by simp [brokenDeeds]
  obtain ⟨s, hs, hends⟩ := Option.map_eq_some_iff.mp hends
  obtain ⟨hbegun, hrest⟩ := Prod.mk.inj hends
  obtain ⟨hinvoked, herrors⟩ := Prod.mk.inj hrest
  exact ⟨s, hs, hstop, run_sequenced hs hstop, hbegun, hinvoked, herrors⟩

end Crew

end Compliance
