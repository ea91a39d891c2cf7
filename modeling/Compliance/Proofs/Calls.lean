import Compliance.Execution.Worker
import Mathlib.Data.List.Basic
import Mathlib.Tactic.Common

namespace Compliance

namespace Latch

variable {l : Latch} {k : String} {ks : List String}

theorem mem_pending_foldl_done : k ∈ (ks.foldl done l).pending ↔ k ∈ l.pending ∧ k ∉ ks := by
  induction ks generalizing l with
  | nil => simp
  | cons n rest ih => simp [ih, mem_pending_done, and_assoc]

theorem mem_pending_foldl_add : k ∈ (ks.foldl add l).pending ↔ k ∈ l.pending ∨ k ∈ ks := by
  induction ks generalizing l with
  | nil => simp
  | cons n rest ih => simp [ih, mem_pending_add, or_assoc, or_comm, or_left_comm]

end Latch

theorem Outlet.send_open {o : Outlet} (h : o.isOpen = true) (r : RawResult) : o.send false r = o.deliver r := by
  simp [send, h]

abbrev Call := Nat × RawResult

def resultsBy (n : Nat) (log : List Call) : List RawResult := (log.filter (·.1 == n)).map Prod.snd

section

variable {n m : Nat} {log log' : List Call}

@[simp] theorem resultsBy_nil : resultsBy n [] = [] := rfl

@[simp] theorem resultsBy_append : resultsBy n (log ++ log') = resultsBy n log ++ resultsBy n log' := by
  simp [resultsBy]

theorem resultsBy_map {α : Type} (n : Nat) (f : α → RawResult) (l : List α) :
    resultsBy n (l.map fun a => (n, f a)) = l.map f := by
  induction l with
  | nil => rfl
  | cons a rest ih => simpa [resultsBy] using ih

theorem resultsBy_singleton_of_ne {r : RawResult} (h : m ≠ n) : resultsBy n [(m, r)] = [] := by
  simp [resultsBy, h]

end

def RawResult.failed (message : String) (k : Checksum) : RawResult := ⟨k, .ofError message⟩

def Move.ends : Move → Bool
  | .fail _ | .panic _ => true
  | _ => false

def CollectionRuntime.moves (r : CollectionRuntime) (serial : Nat) (i : QueueItem) : List Move :=
  (r.script serial i).construct ++ (r.script serial i).run

namespace Worker

variable {w w' w'' : Worker} {log log' : List Call} {serial : Nat} {i : QueueItem} {m : Move} {moves : List Move}

def calls (w : Worker) (serial : Nat) (i : QueueItem) : Move → List Call
  | .report key data => [(serial, ⟨key, data⟩)]
  | .reportAll => i.code.checksums.map fun k => (serial, ⟨k, { value := fullValue i }⟩)
  | .late name key data =>
    match w.kept.lookup name with
    | none => []
    | some n => [(n, ⟨key, data⟩)]
  | _ => []

def performCalls (serial : Nat) (i : QueueItem) : List Move → Worker → List Call
  | [], _ => []
  | .fail _ :: _, _ => []
  | .panic _ :: _, _ => []
  | m :: rest, w => w.calls serial i m ++ performCalls serial i rest (w.act serial i m)

def settleCalls (w : Worker) (serial : Nat) : List Call :=
  if w.stopping then []
  else (w.latch serial).pending.entries.map fun k => (serial, .failed timeoutMessage k)

def enroll (w : Worker) (i : QueueItem) : Worker :=
  { w with latches := w.latches ++ [i.code.checksums.foldl Latch.add {}] }

def invoke (w : Worker) (i : QueueItem) : Worker :=
  { w with invoked := w.invoked ++ [(i.code.id, i.propertyValues)] }

def executeCalls (w : Worker) (runtime : CollectionRuntime) (i : QueueItem) : List Call :=
  match i.propertyError with
  | some message => i.code.checksums.map fun k => (w.latches.length, .failed message k)
  | none =>
    performCalls w.latches.length i (runtime.moves w.latches.length i) ((w.enroll i).invoke i) ++
      match perform w.latches.length i (runtime.moves w.latches.length i) ((w.enroll i).invoke i) with
      | (some _, _) => []
      | (none, w') => w'.settleCalls w.latches.length

/-- A worker that nothing stops: none of its results is dropped, and every kept way to report is that of an
item that it has begun. -/
structure Serving (w : Worker) : Prop where
  stopping : w.stopping = false
  stopsAtPause : w.stopsAtPause = false
  isOpen : w.outlet.isOpen = true
  kept : ∀ e ∈ w.kept, e.2 < w.latches.length

structure Follows (w : Worker) (log : List Call) (w' : Worker) : Prop where
  serving : w'.Serving
  length : w'.latches.length = w.latches.length
  held : w'.outlet.held = w.outlet.held ++ log.map Prod.snd
  latch : ∀ n < w.latches.length, w'.latch n = ((resultsBy n log).map (·.checksum)).foldl Latch.done (w.latch n)

theorem Follows.refl (h : w.Serving) : w.Follows [] w where
  serving := h
  length := rfl
  held := by simp
  latch _ _ := rfl

theorem Follows.trans (h : w.Follows log w') (h' : w'.Follows log' w'') : w.Follows (log ++ log') w'' where
  serving := h'.serving
  length := h'.length.trans h.length
  held := by rw [h'.held, h.held, List.map_append, List.append_assoc]
  latch n hn := by
    rw [h'.latch n (h.length ▸ hn), h.latch n hn, resultsBy_append, List.map_append, List.foldl_append]

theorem Serving.note (h : w.Serving) (e : Event) : (w.note e).Serving :=
  ⟨h.stopping, h.stopsAtPause, h.isOpen, h.kept⟩

theorem Serving.report (h : w.Serving) (n : Nat) (key : Checksum) (data : RawData) :
    w.Follows [(n, ⟨key, data⟩)] (w.report n key data) where
  serving := by
    refine ⟨h.stopping, h.stopsAtPause, ?_, ?_⟩
    · rw [Worker.report, h.stopping, Outlet.send_open h.isOpen]
      exact h.isOpen
    · simpa [Worker.report] using h.kept
  length := by simp [Worker.report]
  held := by
    rw [Worker.report, h.stopping, Outlet.send_open h.isOpen]
    rfl
  latch k hk := by
    by_cases hkn : k = n
    · subst hkn
      simp [Worker.report, Worker.latch, resultsBy, List.getD_eq_getElem?_getD, hk]
    · simp [Worker.report, Worker.latch, resultsBy, List.getD_eq_getElem?_getD, Ne.symm hkn]

theorem Serving.reportEach (h : w.Serving) (n : Nat) (keys : List Checksum) (data : RawData) :
    w.Follows (keys.map fun k => (n, ⟨k, data⟩)) (w.reportEach n keys data) := by
  induction keys generalizing w with
  | nil => exact .refl h
  | cons k rest ih =>
    have hfirst := h.report n k data
    exact hfirst.trans (ih hfirst.serving)

theorem Serving.act (h : w.Serving) (hs : serial < w.latches.length) (m : Move) :
    w.Follows (w.calls serial i m) (w.act serial i m) := by
  cases m with
  | report key data => exact h.report serial key data
  | reportAll => exact h.reportEach serial _ _
  | retain name =>
    refine ⟨⟨h.stopping, h.stopsAtPause, h.isOpen, fun e he => ?_⟩, rfl, by simp [Worker.act, calls], fun _ _ => rfl⟩
    rcases List.mem_cons.mp he with rfl | he
    · exact hs
    · exact h.kept e he
  | late name key data =>
    simp only [Worker.act, calls]
    cases w.kept.lookup name with
    | none => exact .refl h
    | some n => exact h.report n key data
  | pause =>
    refine ⟨⟨?_, h.stopsAtPause, h.isOpen, h.kept⟩, rfl, by simp [Worker.act, calls], fun _ _ => rfl⟩
    simp [Worker.act, h.stopping, h.stopsAtPause]
  | fail context => exact .refl h
  | panic text => exact .refl h

theorem perform_cons (h : m.ends = false) :
    perform serial i (m :: moves) w = perform serial i moves (w.act serial i m) := by
  cases m with
  | fail context => cases h
  | panic text => cases h
  | _ => rfl

theorem performCalls_cons (h : m.ends = false) :
    performCalls serial i (m :: moves) w = w.calls serial i m ++ performCalls serial i moves (w.act serial i m) := by
  cases m with
  | fail context => cases h
  | panic text => cases h
  | _ => rfl

theorem Serving.perform (h : w.Serving) (hs : serial < w.latches.length) (moves : List Move) :
    w.Follows (performCalls serial i moves w) (Worker.perform serial i moves w).2 := by
  induction moves generalizing w with
  | nil => exact .refl h
  | cons m rest ih =>
    cases he : m.ends with
    | false =>
      rw [perform_cons he, performCalls_cons he]
      have hfirst := h.act (i := i) hs m
      exact hfirst.trans (ih hfirst.serving (hfirst.length ▸ hs))
    | true =>
      cases m with
      | fail context => exact .refl h
      | panic text => exact .refl h
      | _ => cases he

theorem perform_error (h : ∀ m ∈ moves, m.ends = false) : (perform serial i moves w).1 = none := by
  induction moves generalizing w with
  | nil => rfl
  | cons m rest ih =>
    rw [perform_cons (h m List.mem_cons_self)]
    exact ih fun m hm => h m (List.mem_cons_of_mem _ hm)

theorem Serving.settle (h : w.Serving) (config : Config) (serial : Nat) (i : QueueItem) :
    (w.settle config serial i).Serving ∧
      (w.settle config serial i).outlet.held = w.outlet.held ++ (w.settleCalls serial).map Prod.snd := by
  have hnoted : ∀ v, (if config.memDebug then w.note .memoryUsage else w) = v →
      v.Serving ∧ v.outlet = w.outlet ∧ v.latches = w.latches := by
    rintro v rfl
    split
    · exact ⟨h.note _, rfl, rfl⟩
    · exact ⟨h, rfl, rfl⟩
  unfold Worker.settle
  generalize hv : (if config.memDebug then w.note .memoryUsage else w) = v
  obtain ⟨hserving, houtlet, hlatches⟩ := hnoted v hv
  have hlatch : w.latch serial = v.latch serial := by rw [latch, latch, hlatches]
  simp only [settleCalls, h.stopping, Bool.false_eq_true, ↓reduceIte, hlatch, ← houtlet]
  split
  · rename_i hempty
    simp only [List.isEmpty_iff.mp hempty, List.map_nil, List.append_nil]
    split
    · exact ⟨hserving.note _, rfl⟩
    · exact ⟨hserving, rfl⟩
  · have hset : ∀ l : Latch, ({ v with latches := v.latches.set serial l } : Worker).Serving := fun l =>
      ⟨hserving.stopping, hserving.stopsAtPause, hserving.isOpen, by simpa using hserving.kept⟩
    have hlast := ((hset (v.latch serial).decommission.2).note
      (.unreported i.code.id (v.latch serial).pending.entries)).reportEach serial (v.latch serial).pending.entries
      (.ofError timeoutMessage)
    split
    · rename_i hstopping
      exact absurd (hserving.stopping.symm.trans hstopping) (by simp)
    · exact ⟨hlast.serving, hlast.held⟩

section

variable {config : Config} {runtime : CollectionRuntime} {message : String}

theorem execute_failed (h : i.propertyError = some message) : w.execute config runtime i =
    (none, (w.enroll i).reportEach w.latches.length i.code.checksums (.ofError message)) := by
  simp only [execute, h]
  rfl

theorem execute_performed (h : i.propertyError = none) : w.execute config runtime i =
    match perform w.latches.length i (runtime.moves w.latches.length i) ((w.enroll i).invoke i) with
    | (some e, w') => (some e, w'.note e.event)
    | (none, w') => (none, w'.settle config w.latches.length i) := by
  simp only [execute, h]
  rfl

end

theorem Serving.not_kept (h : w.Serving) (name : String) : w.kept.lookup name ≠ some w.latches.length := by
  intro hl
  obtain ⟨before, after, hkept, -⟩ := List.lookup_eq_some_iff.mp hl
  exact Nat.lt_irrefl _ (h.kept (name, w.latches.length) (by simp [hkept]))

theorem Serving.enroll (h : w.Serving) (i : QueueItem) : (w.enroll i).Serving := by
  refine ⟨h.stopping, h.stopsAtPause, h.isOpen, fun e he => ?_⟩
  have hlt := h.kept e he
  simp only [Worker.enroll, List.length_append, List.length_singleton]
  omega

theorem Serving.invoke (h : w.Serving) (i : QueueItem) : (w.invoke i).Serving :=
  ⟨h.stopping, h.stopsAtPause, h.isOpen, h.kept⟩

theorem enroll_length (w : Worker) (i : QueueItem) : w.latches.length < (w.enroll i).latches.length := by
  simp [Worker.enroll]

theorem Serving.execute (h : w.Serving) (config : Config) (runtime : CollectionRuntime) (i : QueueItem) :
    (w.execute config runtime i).2.Serving ∧
      (w.execute config runtime i).2.outlet.held = w.outlet.held ++ (w.executeCalls runtime i).map Prod.snd := by
  cases hp : i.propertyError with
  | some message =>
    have hall := (h.enroll i).reportEach w.latches.length i.code.checksums (.ofError message)
    simp only [execute_failed hp, executeCalls, hp]
    exact ⟨hall.serving, hall.held⟩
  | none =>
    have hrun := ((h.enroll i).invoke i).perform (i := i) (enroll_length w i) (runtime.moves w.latches.length i)
    simp only [execute_performed hp, executeCalls, hp]
    obtain ⟨error, w', hw'⟩ : ∃ error w', Worker.perform w.latches.length i (runtime.moves w.latches.length i)
        ((w.enroll i).invoke i) = (error, w') := ⟨_, _, rfl⟩
    rw [hw'] at hrun ⊢
    cases error with
    | some e => exact ⟨hrun.serving.note _, by rw [List.append_nil]; exact hrun.held⟩
    | none =>
      obtain ⟨hserving, hheld⟩ := hrun.serving.settle config w.latches.length i
      exact ⟨hserving, by rw [hheld, hrun.held, List.map_append, List.append_assoc]; rfl⟩

end Worker

end Compliance
