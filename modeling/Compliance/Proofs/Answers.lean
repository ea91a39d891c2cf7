import Compliance.Execution.Manager
import Compliance.Proofs.Calls

namespace Compliance

namespace QueueItem

variable {i : QueueItem} {name e message : String} {d : RawData}

def Failed (i : QueueItem) : Prop := ∃ name d, i.properties.get? name = some d ∧ d.error.isSome = true

/-- Of the properties that failed, the one of smallest name, with its error. -/
structure FirstFailure (i : QueueItem) (name e : String) : Prop where
  failed : ∃ d, i.properties.get? name = some d ∧ d.error = some e
  least : ∀ name' d, i.properties.get? name' = some d → d.error.isSome = true → name ≤ name'

def propertyMessage (name e : String) : String := "property " ++ name ++ " errored: " ++ e

theorem exists_firstFailure (h : i.propertyError = some message) :
    ∃ name e, i.FirstFailure name e ∧ message = propertyMessage name e := by
  obtain ⟨before, ⟨name, d⟩, after, hentries, hmessage, hbefore⟩ := List.findSome?_eq_some_iff.mp h
  obtain ⟨e, he, rfl⟩ := Option.map_eq_some_iff.mp hmessage
  have hordered := i.properties.ordered
  rw [hentries] at hordered
  refine ⟨name, e, ⟨⟨d, ?_, he⟩, fun name' d' hd' herror => ?_⟩, rfl⟩
  · exact NameMap.get?_eq_some.mpr (Keyed.find?_of_mem (hentries ▸ List.mem_append_right _ List.mem_cons_self))
  · have hmem : (name', d') ∈ before ++ (name, d) :: after := hentries ▸ Keyed.mem_of_find? (NameMap.get?_eq_some.mp hd')
    rcases List.mem_append.mp hmem with hmem | hmem
    · have hnone := hbefore _ hmem
      simp only [Option.map_eq_none_iff] at hnone
      simp [hnone] at herror
    · rcases List.mem_cons.mp hmem with heq | hmem
      · obtain ⟨rfl, -⟩ := Prod.mk.inj heq
        exact String.le_refl _
      · have hlt := (List.pairwise_cons.mp (List.pairwise_append.mp hordered).2.1).1 _ hmem
        exact String.not_lt.mp fun hgt => String.lt_irrefl _ (String.lt_trans hlt hgt)

theorem propertyError_eq_none : i.propertyError = none ↔ ¬i.Failed := by
  simp only [propertyError, List.findSome?_eq_none_iff, Option.map_eq_none_iff, Failed, not_exists, not_and]
  constructor
  · intro h name d hd herror
    have hnone : d.error = none := h (name, d) (Keyed.mem_of_find? (NameMap.get?_eq_some.mp hd))
    simp [hnone] at herror
  · rintro h ⟨name, d⟩ hmem
    simpa using h name d (NameMap.get?_eq_some.mpr (Keyed.find?_of_mem hmem))

/-- What moves report by the way of the item they are made for, when that way is kept by some names already. -/
def reports (i : QueueItem) : List String → List Move → List RawResult
  | _, [] => []
  | names, .report key data :: rest => ⟨key, data⟩ :: i.reports names rest
  | names, .reportAll :: rest =>
    i.code.checksums.map (fun k => ⟨k, { value := Worker.fullValue i }⟩) ++ i.reports names rest
  | names, .retain name :: rest => i.reports (name :: names) rest
  | names, .late name key data :: rest =>
    if name ∈ names then ⟨key, data⟩ :: i.reports names rest else i.reports names rest
  | names, _ :: rest => i.reports names rest

def unanswered (i : QueueItem) (moves : List Move) : NameSet :=
  Keyed.filter (fun k => !((i.reports [] moves).map (·.checksum)).contains k) (Keyed.ofList i.code.checksums)

theorem mem_unanswered {moves : List Move} {k : Checksum} :
    k ∈ i.unanswered moves ↔ k ∈ i.code.checksums ∧ k ∉ (i.reports [] moves).map (·.checksum) := by
  simp [unanswered]

end QueueItem

namespace Worker

variable {w : Worker} {serial : Nat} {i : QueueItem}

theorem reportEach_kept (n : Nat) (keys : List Checksum) (data : RawData) :
    (w.reportEach n keys data).kept = w.kept := by
  induction keys generalizing w with
  | nil => rfl
  | cons k rest ih => exact ih

theorem reportEach_invoked (n : Nat) (keys : List Checksum) (data : RawData) :
    (w.reportEach n keys data).invoked = w.invoked := by
  induction keys generalizing w with
  | nil => rfl
  | cons k rest ih => exact ih

theorem lookup_retain {names : List String} (hnames : ∀ n, w.kept.lookup n = some serial ↔ n ∈ names) (name n : String) :
    ((name, serial) :: w.kept).lookup n = some serial ↔ n ∈ name :: names := by
  by_cases hn : n = name
  · simp [hn]
  · have hne : (n == name) = false := beq_eq_false_iff_ne.mpr hn
    simp [List.lookup_cons, hne, hn, hnames]

theorem resultsBy_performCalls {names : List String} {moves : List Move}
    (hnames : ∀ name, w.kept.lookup name = some serial ↔ name ∈ names) (hmoves : ∀ m ∈ moves, m.ends = false) :
    resultsBy serial (performCalls serial i moves w) = i.reports names moves := by
  induction moves generalizing w names with
  | nil => rfl
  | cons m rest ih =>
    have hrest : ∀ m ∈ rest, m.ends = false := fun m hm => hmoves m (List.mem_cons_of_mem _ hm)
    rw [performCalls_cons (hmoves m List.mem_cons_self), resultsBy_append]
    cases m with
    | report key data =>
      rw [ih (by exact hnames) hrest]
      simp [calls, resultsBy, QueueItem.reports]
    | reportAll =>
      rw [ih (by simpa [act, reportEach_kept] using hnames) hrest, calls, resultsBy_map]
      rfl
    | retain name =>
      rw [ih (lookup_retain hnames name) hrest]
      rfl
    | late name key data =>
      -- a late report keeps nothing more
      have hkept : ∀ n, (w.act serial i (.late name key data)).kept.lookup n = some serial ↔ n ∈ names := by
        intro n
        rw [← hnames n, act]
        split
        · rfl
        · rfl
      rw [ih hkept hrest]
      cases hl : w.kept.lookup name with
      | none =>
        have hn : name ∉ names := fun hn => by simp [(hnames name).mpr hn] at hl
        simp [calls, hl, QueueItem.reports, hn]
      | some n =>
        by_cases hserial : n = serial
        · subst hserial
          simp [calls, hl, resultsBy, QueueItem.reports, (hnames name).mp hl]
        · have hn : name ∉ names := fun hn => hserial (Option.some.inj (hl.symm.trans ((hnames name).mpr hn)))
          simp [calls, hl, resultsBy_singleton_of_ne hserial, QueueItem.reports, hn]
    | pause =>
      rw [ih (by exact hnames) hrest]
      rfl
    | fail context => simp [Move.ends] at hmoves
    | panic text => simp [Move.ends] at hmoves

theorem enroll_latch (w : Worker) (i : QueueItem) :
    (w.enroll i).latch w.latches.length = i.code.checksums.foldl Latch.add {} := by
  simp [enroll, latch]

variable {moves : List Move}

theorem Serving.ownReports (h : w.Serving) (hmoves : ∀ m ∈ moves, m.ends = false) :
    resultsBy w.latches.length (performCalls w.latches.length i moves ((w.enroll i).invoke i)) = i.reports [] moves := by
  refine resultsBy_performCalls (fun name => ?_) hmoves
  simp only [List.not_mem_nil, iff_false]
  exact h.not_kept name

theorem Serving.missing (h : w.Serving) (hmoves : ∀ m ∈ moves, m.ends = false) :
    ((Worker.perform w.latches.length i moves ((w.enroll i).invoke i)).2.latch w.latches.length).pending =
      i.unanswered moves := by
  have hrun := ((h.enroll i).invoke i).perform (i := i) (enroll_length w i) moves
  have hfirst : ((w.enroll i).invoke i).latch w.latches.length = i.code.checksums.foldl Latch.add {} := enroll_latch w i
  rw [hrun.latch _ (enroll_length w i), h.ownReports hmoves, hfirst]
  apply Keyed.ext_mem
  intro k
  simp only [← NameSet.mem_entries, Latch.mem_pending_foldl_done, Latch.mem_pending_foldl_add,
    QueueItem.mem_unanswered]
  constructor
  · rintro ⟨hk | hk, hn⟩
    · exact absurd hk NameSet.not_mem_empty
    · exact ⟨hk, hn⟩
  · exact fun h => ⟨.inr h.1, h.2⟩

theorem Serving.ownResults (h : w.Serving) {runtime : CollectionRuntime} (hp : i.propertyError = none)
    (hmoves : ∀ m ∈ runtime.moves w.latches.length i, m.ends = false) : resultsBy w.latches.length (w.executeCalls runtime i) =
      i.reports [] (runtime.moves w.latches.length i) ++
        (i.unanswered (runtime.moves w.latches.length i)).entries.map (.failed timeoutMessage) := by
  have hrun := ((h.enroll i).invoke i).perform (i := i) (enroll_length w i) (runtime.moves w.latches.length i)
  have hmissing := h.missing (i := i) hmoves
  have herror : (Worker.perform w.latches.length i (runtime.moves w.latches.length i) ((w.enroll i).invoke i)).1 = none :=
    perform_error hmoves
  simp only [executeCalls, hp]
  obtain ⟨error, w', hw'⟩ : ∃ error w', Worker.perform w.latches.length i (runtime.moves w.latches.length i)
      ((w.enroll i).invoke i) = (error, w') := ⟨_, _, rfl⟩
  rw [hw'] at hrun hmissing herror ⊢
  obtain rfl : error = none := herror
  have hstopping : w'.stopping = false := hrun.serving.stopping
  have hpending : (w'.latch w.latches.length).pending = i.unanswered (runtime.moves w.latches.length i) := hmissing
  simp only [settleCalls, hstopping, Bool.false_eq_true, ↓reduceIte, hpending, resultsBy_append,
    h.ownReports hmoves, resultsBy_map]

end Worker

namespace Manager

def calls (m : Manager) : List Call :=
  match m.queue with
  | [] => []
  | i :: _ => if m.ready then m.worker.executeCalls m.runtime i else []

def moves (m : Manager) (i : QueueItem) : List Move := m.runtime.moves m.worker.latches.length i

def ownResults (m : Manager) : List RawResult := resultsBy m.worker.latches.length m.calls

/-- The managers that come of a new one without a stop and while its results are received. -/
inductive Serving : Manager → Prop
  | new (config : Config) (runtime : CollectionRuntime) (capacity : Option Nat) (races : List Bool) :
    Serving { config := config, runtime := runtime, worker := { outlet := { capacity := capacity, races := races } } }
  | start {m : Manager} : Serving m → Serving m.start
  | send {m : Manager} (i : QueueItem) : Serving m → Serving (m.send i).2
  | advance {m : Manager} : Serving m → Serving m.advance
  | snapshot {m : Manager} (state : ManagerState) : Serving m → Serving (m.snapshot state).2
  | close {m : Manager} : Serving m → Serving { m with queueOpen := false }

variable {m : Manager} {i : QueueItem} {rest : List QueueItem}

theorem advance_idle (hr : m.ready = false) : m.advance = m := by
  unfold Manager.advance
  split
  · rfl
  · simp only [hr, Bool.false_eq_true, ↓reduceIte]

theorem exists_of_ready (hr : m.ready = true) : ∃ i rest, m.queue = i :: rest := by
  cases hq : m.queue with
  | nil => simp [ready, hq] at hr
  | cons i rest => exact ⟨i, rest, rfl⟩

theorem advance_eq (hq : m.queue = i :: rest) (hr : m.ready = true) : m.advance =
    { m with
      queue := rest
      worker := (m.worker.execute m.config m.runtime i).2
      handle := if (m.worker.execute m.config m.runtime i).1.isSome then .ended else m.handle
      errors := m.errors ++ (m.worker.execute m.config m.runtime i).1.toList } := by
  simp only [Manager.advance, hq, hr, ↓reduceIte]

theorem Serving.worker (h : m.Serving) : m.worker.Serving := by
  induction h with
  | new config runtime capacity races => exact ⟨rfl, rfl, rfl, fun e he => by cases he⟩
  | start _ ih =>
    unfold Manager.start
    split
    · exact ih
    · exact ih
  | send i _ ih =>
    unfold Manager.send
    split
    · exact ih
    · exact ih
  | @advance m _ ih =>
    cases hr : m.ready with
    | false => rwa [advance_idle hr]
    | true =>
      obtain ⟨i, rest, hq⟩ := exists_of_ready hr
      rw [advance_eq hq hr]
      exact (ih.execute m.config m.runtime i).1
  | snapshot state _ ih => exact ⟨ih.stopping, ih.stopsAtPause, ih.isOpen, ih.kept⟩
  | close _ ih => exact ih

theorem Serving.advanceAll (h : m.Serving) (n : Nat) : (Manager.advanceAll n m).Serving := by
  induction n generalizing m with
  | zero => exact h
  | succ n ih => exact ih h.advance

theorem Serving.drain (h : m.Serving) : m.drain.2.Serving := by
  unfold Manager.drain
  split
  · exact .snapshot _ (h.advanceAll _)
  · exact .snapshot _ h

theorem calls_eq (hq : m.queue = i :: rest) (hr : m.ready = true) :
    m.calls = m.worker.executeCalls m.runtime i := by
  simp only [calls, hq, hr, ↓reduceIte]

theorem ownResults_of_failed (hq : m.queue = i :: rest) (hr : m.ready = true) (hf : i.Failed) :
    ∃ name e, i.FirstFailure name e ∧
      m.ownResults = i.code.checksums.map (.failed (QueueItem.propertyMessage name e)) ∧
      m.advance.worker.invoked = m.worker.invoked := by
  obtain ⟨message, hp⟩ := Option.ne_none_iff_exists'.mp fun hn => QueueItem.propertyError_eq_none.mp hn hf
  obtain ⟨name, e, hfirst, rfl⟩ := QueueItem.exists_firstFailure hp
  refine ⟨name, e, hfirst, ?_, ?_⟩
  · simp only [ownResults, calls_eq hq hr, Worker.executeCalls, hp, resultsBy_map]
  · rw [advance_eq hq hr, Worker.execute_failed hp]
    exact Worker.reportEach_invoked _ _ _

theorem Serving.ownResults_of_ran (h : m.Serving) (hq : m.queue = i :: rest) (hr : m.ready = true) (hf : ¬i.Failed)
    (hmoves : ∀ mv ∈ m.moves i, mv.ends = false) : m.ownResults = i.reports [] (m.moves i) ++
      (i.unanswered (m.moves i)).entries.map (.failed timeoutMessage) := by
  rw [ownResults, calls_eq hq hr]
  exact h.worker.ownResults (QueueItem.propertyError_eq_none.mpr hf) hmoves

/-- What the results of an item are when it is its turn: the outlet gets all that is called for while it is in
flight, and by its own way come either the error of a failed property for each datapoint, or the reports of
its moves and then, in order, a timeout error for each datapoint that these leave out. -/
structure Answers (m : Manager) (i : QueueItem) : Prop where
  held : m.advance.worker.outlet.held = m.worker.outlet.held ++ m.calls.map Prod.snd
  failed : i.Failed → ∃ name e, i.FirstFailure name e ∧
    m.ownResults = i.code.checksums.map (.failed (QueueItem.propertyMessage name e)) ∧
    m.advance.worker.invoked = m.worker.invoked
  ran : ¬i.Failed → (∀ mv ∈ m.moves i, mv.ends = false) →
    m.ownResults = i.reports [] (m.moves i) ++
      (i.unanswered (m.moves i)).entries.map (.failed timeoutMessage)
  once : i.code.checksums.Nodup
  all : i.Failed ∨ (∀ mv ∈ m.moves i, mv.ends = false) →
    ∀ k ∈ i.code.checksums, ∃ r ∈ m.ownResults, r.checksum = k

theorem Serving.answers (h : m.Serving) (hq : m.queue = i :: rest) (hr : m.ready = true) : m.Answers i where
  held := by
    rw [advance_eq hq hr, calls_eq hq hr]
    exact (h.worker.execute m.config m.runtime i).2
  failed := ownResults_of_failed hq hr
  ran := h.ownResults_of_ran hq hr
  once := i.code.checksums_nodup
  all hcase k hk := by
    by_cases hf : i.Failed
    · obtain ⟨name, e, -, hown, -⟩ := ownResults_of_failed hq hr hf
      rw [hown]
      exact ⟨_, List.mem_map_of_mem hk, rfl⟩
    · rw [h.ownResults_of_ran hq hr hf (hcase.resolve_left hf)]
      by_cases hreported : k ∈ (i.reports [] (m.moves i)).map (·.checksum)
      · obtain ⟨r, hmem, hkey⟩ := List.mem_map.mp hreported
        exact ⟨r, List.mem_append_left _ hmem, hkey⟩
      · have hleft : k ∈ i.unanswered (m.moves i) := QueueItem.mem_unanswered.mpr ⟨hk, hreported⟩
        exact ⟨_, List.mem_append_right _ (List.mem_map_of_mem hleft), rfl⟩

end Manager

def keepingItem : QueueItem where
  code := { id := "first", entrypoints := ["a"] }

def chattyItem : QueueItem where
  code := { id := "second", entrypoints := ["c", "a"], datapoints := ["b", "a"] }

def chattyRuntime : Runtime := .ofList [
  ("first", { construct := [.retain "old"], run := [.reportAll] }),
  ("second", { construct := [.retain "new", .late "old" "b" {}], run := [.report "a" {}, .late "new" "x" {}, .report "a" {}] })]

def chattyManager : Manager :=
  let fresh : Manager := { config := (Config.ofEnvironment none none).1, runtime := chattyRuntime }
  (((fresh.start.send keepingItem).2.drain).2.send chattyItem).2

theorem chattyManager_answers : chattyManager.Serving ∧ chattyManager.queue = [chattyItem] ∧
    chattyManager.ready = true ∧ chattyManager.Answers chattyItem ∧
    chattyManager.ownResults.map (·.checksum) = ["a", "x", "a", "b", "c"] := by
  have h : chattyManager.Serving := .send _ (Manager.Serving.drain (.send _ (.start (.new _ chattyRuntime none []))))
  have hq : chattyManager.queue = [chattyItem] := rfl
  have hr : chattyManager.ready = true := rfl
  exact ⟨h, hq, hr, h.answers hq hr, by decide +kernel⟩

end Compliance
