import Compliance.Proofs.Service
import Compliance.Proofs.Unheard
import Mathlib.Data.List.TakeWhile

/-!
A crew that nothing stops has at most one worker, and where that worker stands tells what became of the items
begun so far: all of them went well, or all but the last, which is being asked for or is the first to fail.
-/

namespace Compliance

def CollectionRuntime.fault (r : CollectionRuntime) : QueueItem × Nat → Option ExecutionError
  | (i, serial) =>
    match i.propertyError with
    | some _ => none
    | none => (r.moves serial i).findSome? Move.fault

def CollectionRuntime.upTo (r : CollectionRuntime) : List (QueueItem × Nat) → List (QueueItem × Nat)
  | [] => []
  | i :: rest => i :: if (r.fault i).isSome then [] else r.upTo rest

def invocations (items : List QueueItem) : List (CodeId × NameMap Json.Value) :=
  (items.filter (·.propertyError.isNone)).map fun i => (i.code.id, i.propertyValues)

def QueueItem.untilFault (i : QueueItem) (moves : List Move) : List RawResult :=
  i.reports [] (moves.takeWhile (!·.ends))

theorem zipIdx_concat {α : Type} (l : List α) (a : α) : (l ++ [a]).zipIdx = l.zipIdx ++ [(a, l.length)] := by
  simp [List.zipIdx_append]

namespace CollectionRuntime

variable {r : CollectionRuntime} {i : QueueItem} {numbered : QueueItem × Nat} {items later : List (QueueItem × Nat)}

theorem upTo_clean (h : ∀ j ∈ items, r.fault j = none) : r.upTo (items ++ later) = items ++ r.upTo later := by
  induction items with
  | nil => rfl
  | cons j rest ih =>
    simp only [List.cons_append, upTo, h j List.mem_cons_self, Option.isSome_none, Bool.false_eq_true, ↓reduceIte]
    rw [ih fun k hk => h k (List.mem_cons_of_mem _ hk)]

theorem upTo_fault (h : ∀ j ∈ items, r.fault j = none) (hi : (r.fault numbered).isSome = true) :
    r.upTo (items ++ numbered :: later) = items ++ [numbered] := by
  rw [upTo_clean h, upTo, if_pos hi]

theorem prefix_upTo (h : ∀ j ∈ items.dropLast, r.fault j = none) : items <+: r.upTo (items ++ later) := by
  rcases List.eq_nil_or_concat items with rfl | ⟨earlier, i, rfl⟩
  · exact List.nil_prefix
  · rw [List.concat_eq_append, List.dropLast_concat] at h
    rw [List.concat_eq_append, List.append_assoc, upTo_clean h]
    exact (List.prefix_append_right_inj earlier).mpr (List.prefix_append [i] _)

theorem findSome?_failures (message : String) (keys : List Checksum) :
    (QueueItem.failures message keys).findSome? Move.fault = none := by
  simp [QueueItem.failures, Move.fault]

theorem findSome?_spell (moves : List Move) : (i.spell moves).findSome? Move.fault = moves.findSome? Move.fault := by
  induction moves with
  | nil => rfl
  | cons m rest ih =>
    have hreports : ∀ (keys : List Checksum) (data : RawData),
        (keys.map (Move.report · data)).findSome? Move.fault = none := by
      intro keys data
      simp [Move.fault]
    rw [QueueItem.spell, List.flatMap_cons, ← QueueItem.spell, List.findSome?_append, ih]
    cases m with
    | reportAll => simp [hreports, List.findSome?_cons, Move.fault]
    | _ => simp [List.findSome?_cons, Move.fault]

end CollectionRuntime

namespace Worker

variable {w : Worker} {serial : Nat} {i : QueueItem}

theorem performCalls_takeWhile (moves : List Move) :
    performCalls serial i (moves.takeWhile (!·.ends)) w = performCalls serial i moves w := by
  induction moves generalizing w with
  | nil => rfl
  | cons m rest ih =>
    cases he : m.ends with
    | false => rw [List.takeWhile_cons_of_pos (by simp [he]), performCalls_cons he, performCalls_cons he, ih]
    | true =>
      -- moves after one that ends the item are not made in either
      rw [List.takeWhile_cons_of_neg (by simp [he])]
      cases m with
      | fail context => rfl
      | panic text => rfl
      | _ => cases he

theorem ownResults_of_fresh (moves : List Move) (h : ∀ e ∈ w.kept, e.2 ≠ serial) :
    resultsBy serial (performCalls serial i (i.spell moves) w) = i.untilFault moves := by
  rw [performCalls_spell, ← performCalls_takeWhile]
  refine resultsBy_performCalls (fun name => ?_) fun m hm => by simpa using List.mem_takeWhile_imp hm
  simp only [List.not_mem_nil, iff_false]
  intro hl
  obtain ⟨before, after, hkept, -⟩ := List.lookup_eq_some_iff.mp hl
  exact h (name, serial) (by simp [hkept]) rfl

end Worker

namespace Crew

variable {runtime : CollectionRuntime} {s s' : Crew} {d : Deed} {deeds : List Deed} {n : Nat} {p p' : Post} {e : ExecutionError}

structure Sound (runtime : CollectionRuntime) (s : Crew) : Prop where
  clean : ∀ i ∈ s.begun.zipIdx, runtime.fault i = none
  errors : s.manager.errors = []

/-- The last item begun is the first that fails; by its own way came what it reports until then, and no more. -/
def Fallen (runtime : CollectionRuntime) (s : Crew) (e : ExecutionError) : Prop :=
  ∃ earlier i, s.begun = earlier ++ [i] ∧ (∀ j ∈ earlier.zipIdx, runtime.fault j = none) ∧
    runtime.fault (i, earlier.length) = some e ∧
    resultsBy earlier.length (s.log.map Prod.snd) = i.untilFault (runtime.moves earlier.length i)

inductive Stands (runtime : CollectionRuntime) (s : Crew) : Post → Prop
  | top : s.Sound runtime → Stands runtime s .top
  | waiting : s.Sound runtime → Stands runtime s .waiting
  | asking {earlier : List QueueItem} {i : QueueItem} {moves : List Move} :
    s.begun = earlier ++ [i] → (∀ j ∈ earlier.zipIdx, runtime.fault j = none) → s.manager.errors = [] →
    moves.findSome? Move.fault = runtime.fault (i, earlier.length) →
    resultsBy earlier.length (s.log.map Prod.snd) ++
      resultsBy earlier.length (Worker.performCalls earlier.length i moves s.manager.worker) =
        i.untilFault (runtime.moves earlier.length i) →
    Stands runtime s (.busy earlier.length i moves false)
  | answering {serial : Nat} {i : QueueItem} {moves : List Move} : s.Sound runtime → serial < s.begun.length →
    moves.findSome? Move.fault = none → Stands runtime s (.busy serial i moves true)
  | failing {e : ExecutionError} : s.manager.errors = [] → s.Fallen runtime e → Stands runtime s (.failing e)
  | left : s.Sound runtime → s.manager.queue = [] → s.manager.queueOpen = false → Stands runtime s .ended
  | failed {e : ExecutionError} : s.manager.errors = [e] → s.Fallen runtime e → Stands runtime s .ended

structure Booked (runtime : CollectionRuntime) (s : Crew) : Prop where
  runtime : s.manager.runtime = runtime
  stopped : s.manager.stopped = false
  stopping : s.stopping = 0
  joining : s.joining = none
  serials : s.manager.worker.latches.length = s.begun.length
  kept : ∀ e ∈ s.manager.worker.kept, e.2 < s.begun.length
  callees : ∀ c ∈ s.log, c.2.1 < s.begun.length
  invoked : s.manager.worker.invoked = invocations s.begun

inductive Steady (runtime : CollectionRuntime) (s : Crew) : Prop
  | unmanned : s.Booked runtime → s.posts = [] → s.held = none → s.begun = [] → s.manager.errors = [] → Steady runtime s
  | manned {p : Post} : s.Booked runtime → s.posts = [p] → s.held = some 0 → s.Stands runtime p → Steady runtime s

theorem Steady.booked (hs : s.Steady runtime) : s.Booked runtime := by
  cases hs with
  | unmanned hb => exact hb
  | manned hb => exact hb

theorem Steady.stands (hs : s.Steady runtime) (hp : s.posts[n]? = some p) :
    n = 0 ∧ s.posts = [p] ∧ s.held = some 0 ∧ s.Stands runtime p := by
  cases hs with
  | unmanned _ hposts => simp [hposts] at hp
  | @manned q _ hposts hheld hstands =>
    rw [hposts] at hp
    have hn : n = 0 := by
      have hlt := (List.getElem?_eq_some_iff.mp hp).1
      simpa using hlt
    subst hn
    obtain rfl : q = p := Option.some.inj hp
    exact ⟨rfl, hposts, hheld, hstands⟩

theorem Steady.set (hs : s.Steady runtime) (hp : s.posts[n]? = some p) (hb : s'.Booked runtime)
    (hposts : s'.posts = s.posts.set n p') (hheld : s'.held = s.held) (hstands : s'.Stands runtime p') :
    s'.Steady runtime := by
  obtain ⟨rfl, hposts', hheld', -⟩ := hs.stands hp
  exact .manned hb (by rw [hposts, hposts']; rfl) (hheld.trans hheld') hstands

theorem Steady.post (hs : s.Steady runtime) (hp : s.posts[n]? = some p) (hstands : (s.post n p').Stands runtime p') :
    (s.post n p').Steady runtime :=
  have hb := hs.booked
  hs.set hp { hb with } rfl rfl hstands

theorem Stands.of_same (h : s.Stands runtime p) (hbegun : s'.begun = s.begun) (hlog : s'.log = s.log)
    (herrors : s'.manager.errors = s.manager.errors) (hworker : s'.manager.worker.muted = s.manager.worker.muted)
    (hqueue : s.manager.queue = [] → s.manager.queueOpen = false → s'.manager.queue = [] ∧ s'.manager.queueOpen = false) :
    s'.Stands runtime p := by
  have hsound : s.Sound runtime → s'.Sound runtime := fun h => ⟨hbegun ▸ h.clean, herrors.trans h.errors⟩
  have hfallen : ∀ e, s.Fallen runtime e → s'.Fallen runtime e := by
    intro e he
    unfold Fallen
    rwa [hbegun, hlog]
  cases h with
  | top h => exact .top (hsound h)
  | waiting h => exact .waiting (hsound h)
  | asking hb hclean he hfault hown =>
    refine .asking (hbegun.trans hb) hclean (herrors.trans he) hfault ?_
    rwa [hlog, Worker.performCalls_congr hworker]
  | answering h hlt hfault => exact .answering (hsound h) (hbegun ▸ hlt) hfault
  | failing he hf => exact .failing (herrors.trans he) (hfallen _ hf)
  | left h hq ho => exact .left (hsound h) (hqueue hq ho).1 (hqueue hq ho).2
  | failed he hf => exact .failed (herrors.trans he) (hfallen _ hf)

theorem Steady.of_same (hs : s.Steady runtime) (hb : s'.Booked runtime) (hposts : s'.posts = s.posts) (hheld : s'.held = s.held)
    (hbegun : s'.begun = s.begun) (hlog : s'.log = s.log) (herrors : s'.manager.errors = s.manager.errors)
    (hworker : s'.manager.worker.muted = s.manager.worker.muted)
    (hqueue : s.manager.queue = [] → s.manager.queueOpen = false → s'.manager.queue = [] ∧ s'.manager.queueOpen = false) :
    s'.Steady runtime := by
  cases hs with
  | unmanned _ hp hh hn he => exact .unmanned hb (hposts.trans hp) (hheld.trans hh) (hbegun.trans hn) (herrors.trans he)
  | manned _ hp hh hstands =>
    exact .manned hb (hposts.trans hp) (hheld.trans hh) (hstands.of_same hbegun hlog herrors hworker hqueue)

theorem Booked.begin (hb : s.Booked runtime) (i : QueueItem) (rest : List QueueItem) : (s.begin n i rest).Booked runtime where
  runtime := hb.runtime
  stopped := hb.stopped
  stopping := hb.stopping
  joining := hb.joining
  serials := by
    have hlength : (s.manager.worker.begin i).latches.length = s.manager.worker.latches.length + 1 := by
      unfold Worker.begin
      split <;> simp [Worker.enroll, Worker.invoke]
    simpa [Crew.begin, hlength] using hb.serials
  kept e he := by
    have hkept : (s.manager.worker.begin i).kept = s.manager.worker.kept := by
      unfold Worker.begin
      split <;> rfl
    have hlt := hb.kept e (hkept ▸ he)
    simp only [Crew.begin, List.length_append, List.length_singleton]
    omega
  callees c hc := by
    have hlt := hb.callees c hc
    simp only [Crew.begin, List.length_append, List.length_singleton]
    omega
  invoked := by
    have hinvoked := hb.invoked
    unfold invocations at hinvoked ⊢
    simp only [Crew.begin, Worker.begin, List.filter_append, List.map_append]
    cases hfailed : i.propertyError with
    | some message => simpa [hfailed, Worker.enroll] using hinvoked
    | none => simpa [hfailed, Worker.enroll, Worker.invoke] using hinvoked

theorem Steady.begin (hs : s.Steady runtime) (hp : s.posts[n]? = some .waiting) (i : QueueItem) (rest : List QueueItem) :
    (s.begin n i rest).Steady runtime := by
  have hb := hs.booked
  obtain ⟨-, -, -, hstands⟩ := hs.stands hp
  obtain ⟨hclean, herrors⟩ : s.Sound runtime := by
    cases hstands with
    | waiting h => exact h
  refine hs.set hp (hb.begin i rest) rfl rfl ?_
  rw [hb.serials]
  cases hfailed : i.propertyError with
  | some message =>
    -- answered with the error of a property: the runtime is not asked, and so cannot fail
    have hfault : runtime.fault (i, s.begun.length) = none := by simp only [CollectionRuntime.fault, hfailed]
    refine .answering ⟨fun j hj => ?_, herrors⟩ (by simp [Crew.begin]) ?_
    · rcases List.mem_append.mp (zipIdx_concat s.begun i ▸ hj) with hj | hj
      · exact hclean j hj
      · rwa [List.mem_singleton.mp hj]
    · simp only [Manager.plan, CollectionRuntime.plan, hfailed]
      exact CollectionRuntime.findSome?_failures _ _
  | none =>
    refine .asking rfl hclean herrors ?_ ?_
    · simp only [Manager.plan, CollectionRuntime.plan, CollectionRuntime.fault, hfailed, hb.serials, hb.runtime]
      exact CollectionRuntime.findSome?_spell _
    · -- by its way nothing has come so far, and no handle of it is kept
      have hnone : resultsBy s.begun.length (s.log.map Prod.snd) = [] := by
        simp only [resultsBy, List.map_eq_nil_iff, List.filter_eq_nil_iff, List.forall_mem_map, beq_iff_eq]
        exact fun c hc => Nat.ne_of_lt (hb.callees c hc)
      have hfresh : ∀ e ∈ (s.manager.worker.begin i).kept, e.2 ≠ s.begun.length := by
        simp only [Worker.begin, hfailed]
        exact fun e he => Nat.ne_of_lt (hb.kept e he)
      simp only [Manager.plan, CollectionRuntime.plan, hfailed, hb.serials, hb.runtime]
      rw [show (s.begin n i rest).log = s.log from rfl, hnone, List.nil_append]
      exact Worker.ownResults_of_fresh _ hfresh

theorem Booked.act {serial : Nat} {i : QueueItem} {m : Move} {rest : List Move} {settled : Bool} (hb : s.Booked runtime)
    (hserial : serial < s.begun.length) : (s.act n serial i m rest settled).Booked runtime where
  runtime := hb.runtime
  stopped := hb.stopped
  stopping := hb.stopping
  joining := hb.joining
  serials := Worker.act_length.trans hb.serials
  kept e he := (Worker.act_kept he).elim (hb.kept e) fun heq => heq ▸ hserial
  callees c hc := by
    rcases List.mem_append.mp hc with hc | hc
    · exact hb.callees c hc
    · obtain ⟨call, hcall, rfl⟩ := List.mem_map.mp hc
      rcases Worker.callee_of_mem hcall with heq | ⟨e, he, heq⟩
      · exact heq ▸ hserial
      · exact heq ▸ hb.kept e he
  invoked := Worker.act_invoked.trans hb.invoked

theorem Stands.serial_lt {serial : Nat} {i : QueueItem} {moves : List Move} {settled : Bool}
    (h : s.Stands runtime (.busy serial i moves settled)) : serial < s.begun.length := by
  cases h with
  | asking hbegun => simp [hbegun]
  | answering _ hlt => exact hlt

theorem Steady.act {serial : Nat} {i : QueueItem} {m : Move} {rest : List Move} {settled : Bool} (hs : s.Steady runtime)
    (hp : s.posts[n]? = some (.busy serial i (m :: rest) settled)) (hf : m.fault = none) :
    (s.act n serial i m rest settled).Steady runtime := by
  have hb := hs.booked
  obtain ⟨-, -, -, hstands⟩ := hs.stands hp
  refine hs.set hp (hb.act hstands.serial_lt) rfl rfl ?_
  have hrest : (m :: rest).findSome? Move.fault = rest.findSome? Move.fault := by rw [List.findSome?_cons, hf]
  cases hstands with
  | asking hbegun hclean herrors hfault hown =>
    refine .asking hbegun hclean herrors (hrest ▸ hfault) ?_
    rw [Worker.performCalls_cons (Move.fault_eq_none.mp hf), resultsBy_append, ← List.append_assoc] at hown
    -- what the move calls passes from what is to come to what has come
    rw [← hown, Crew.act, List.map_append, List.map_map, resultsBy_append]
    simp only [Function.comp_def, List.map_id']
  | answering h hlt hfault => exact .answering ⟨h.clean, h.errors⟩ hlt (hrest ▸ hfault)

theorem Steady.halt {serial : Nat} {i : QueueItem} {m : Move} {rest : List Move} {settled : Bool} (hs : s.Steady runtime)
    (hp : s.posts[n]? = some (.busy serial i (m :: rest) settled)) (hf : m.fault = some e) :
    (s.post n (.failing e)).Steady runtime := by
  obtain ⟨-, -, -, hstands⟩ := hs.stands hp
  have hfirst : (m :: rest).findSome? Move.fault = some e := by rw [List.findSome?_cons, hf]
  refine hs.post hp ?_
  cases hstands with
  | asking hbegun hclean herrors hfault hown =>
    rw [Worker.performCalls_fault hf, resultsBy_nil, List.append_nil] at hown
    exact .failing herrors ⟨_, _, hbegun, hclean, hfault.symm.trans hfirst, hown⟩
  | answering _ _ hfault => exact absurd (hfirst.symm.trans hfault) (by simp)

theorem Steady.settle {serial : Nat} {i : QueueItem} (hs : s.Steady runtime)
    (hp : s.posts[n]? = some (.busy serial i [] false)) : (s.settle n serial i).Steady runtime := by
  have hb := hs.booked
  obtain ⟨-, -, -, hstands⟩ := hs.stands hp
  obtain ⟨latches, events, hw, hlength⟩ := s.manager.worker.exists_wrapUp s.manager.config serial i
  have hb' : (s.settle n serial i).Booked runtime := by
    unfold Crew.settle
    rw [hw]
    exact ⟨hb.runtime, hb.stopped, hb.stopping, hb.joining, hlength.trans hb.serials, hb.kept, hb.callees, hb.invoked⟩
  refine hs.set hp hb' rfl rfl ?_
  cases hstands with
  | asking hbegun hclean herrors hfault =>
    refine .answering ⟨fun j hj => ?_, herrors⟩ (by simp [Crew.settle, hbegun]) (CollectionRuntime.findSome?_failures _ _)
    rw [show (s.settle n _ i).begun = s.begun from rfl, hbegun, zipIdx_concat] at hj
    rcases List.mem_append.mp hj with hj | hj
    · exact hclean j hj
    · rw [List.mem_singleton.mp hj]
      exact hfault.symm

theorem Steady.fail (hs : s.Steady runtime) (hp : s.posts[n]? = some (.failing e)) : (s.fail n e).Steady runtime := by
  have hb := hs.booked
  obtain ⟨-, -, -, hstands⟩ := hs.stands hp
  refine hs.set hp { hb with } rfl rfl ?_
  cases hstands with
  | failing herrors hfallen => exact .failed (by simp [Crew.fail, herrors]) hfallen

theorem Steady.turn (hs : s.Steady runtime) (hd : d ≠ .signal) (ht : s.Turn d s') : s'.Steady runtime := by
  have hb := hs.booked
  cases ht with
  | spawn hj hh =>
    rw [Crew.spawn, Manager.start_eq]
    cases hs with
    | unmanned _ hposts _ hbegun herrors =>
      refine .manned { hb with }
        (by simp [hposts]) (by simp [hposts]) (.top ⟨fun i hi => ?_, herrors⟩)
      simp [hbegun] at hi
    | manned _ _ hheld => simp [hh] at hheld
  | keep _ _ => exact hs
  | signal => exact absurd rfl hd
  | take _ hleft => simp [hb.stopping] at hleft
  | join hj _ => simp [hb.joining] at hj
  | send i hopen =>
    refine hs.of_same { hb with }
      rfl rfl rfl rfl rfl rfl fun _ hclosed => ?_
    -- with the queue open, nobody has left for want of work
    simp [hopen] at hclosed
  | close =>
    exact hs.of_same { hb with }
      rfl rfl rfl rfl rfl rfl fun hq _ => ⟨hq, rfl⟩
  | drop =>
    exact hs.of_same { hb with }
      rfl rfl rfl rfl rfl rfl fun hq ho => ⟨hq, ho⟩
  | look hp =>
    rw [if_neg (by simp [hb.stopped])]
    refine hs.post hp ?_
    cases (hs.stands hp).2.2.2 with
    | top h => exact .waiting ⟨h.clean, h.errors⟩
  | pick hp _ => exact hs.begin hp _ _
  | leave hp hend =>
    obtain ⟨hq, ho⟩ := hend.resolve_left (by simp [hb.stopped])
    refine hs.post hp ?_
    cases (hs.stands hp).2.2.2 with
    | waiting h => exact .left ⟨h.clean, h.errors⟩ hq ho
  | act hp hf => exact hs.act hp hf
  | halt hp hf => exact hs.halt hp hf
  | settle hp => exact hs.settle hp
  | finish hp =>
    refine hs.post hp ?_
    cases (hs.stands hp).2.2.2 with
    | answering h => exact .top ⟨h.clean, h.errors⟩
  | report hp => exact hs.fail hp

theorem steady_new (config : Config) (runtime : CollectionRuntime) (capacity : Option Nat) (races : List Bool) :
    (new config runtime capacity races).Steady runtime := by
  refine .unmanned ⟨rfl, rfl, rfl, rfl, rfl, fun e he => ?_, fun c hc => ?_, rfl⟩ rfl rfl rfl rfl
  · cases he
  · cases hc

theorem Steady.run (hs : s.Steady runtime) (hstop : .signal ∉ deeds) (h : s.run deeds = some s') : s'.Steady runtime :=
  run_invariant h hs fun _ hd _ _ hs ht => hs.turn (ne_of_mem_of_not_mem hd hstop) ht

end Crew

end Compliance
