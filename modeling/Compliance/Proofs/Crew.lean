import Compliance.Execution.Manager
import Compliance.Proofs.Calls
import Mathlib.Data.List.Basic
import Mathlib.Tactic.Common

/-!
A manager among its threads, every deed of one of them atomic. Whoever stops it does so in two deeds, closes
the signal and then takes the handle, and if a worker is held joins it under the lock of the handle. A worker
looks for a stop at the top of its loop, takes an item or leaves, and makes the moves of an item call by call,
so that a start, a stop, a send or the loss of the results' receiver can come between any two of them.
-/

namespace Compliance

def Move.fault : Move → Option ExecutionError
  | .fail context => some (.runtime context)
  | .panic text => some (.panicked (text.getD "unknown panic"))
  | _ => none

theorem Move.fault_eq_none {m : Move} : m.fault = none ↔ m.ends = false := by
  cases m <;> simp [Move.ends, Move.fault]

namespace QueueItem

def spell (i : QueueItem) (moves : List Move) : List Move :=
  moves.flatMap fun
    | .reportAll => i.code.checksums.map fun k => .report k { value := Worker.fullValue i }
    | m => [m]

def failures (message : String) (keys : List Checksum) : List Move := keys.map (.report · (.ofError message))

end QueueItem

def CollectionRuntime.plan (r : CollectionRuntime) (serial : Nat) (i : QueueItem) : List Move :=
  match i.propertyError with
  | some message => QueueItem.failures message i.code.checksums
  | none => i.spell (r.moves serial i)

namespace Worker

def begin (w : Worker) (i : QueueItem) : Worker :=
  match i.propertyError with
  | some _ => w.enroll i
  | none => (w.enroll i).invoke i

def measure (w : Worker) (config : Config) : Worker := if config.memDebug then w.note .memoryUsage else w

def decommission (w : Worker) (serial : Nat) : Worker :=
  { w with latches := w.latches.set serial (w.latch serial).decommission.2 }

def missing (w : Worker) (serial : Nat) : List Checksum := (w.latch serial).pending.entries

def wrapUp (w : Worker) (config : Config) (serial : Nat) (i : QueueItem) : List Checksum × Worker :=
  let w := w.measure config
  if (w.latch serial).pending.isEmpty then
    ([], if config.slow.isZero && !w.stopping then w.note (.slowQuery i.code.id) else w)
  else if w.stopping then ([], w.decommission serial)
  else (w.missing serial, (w.decommission serial).note (.unreported i.code.id (w.missing serial)))

end Worker

def Manager.new (config : Config) (runtime : CollectionRuntime) (capacity : Option Nat) (races : List Bool) : Manager :=
  { config := config, runtime := runtime, worker := { outlet := { capacity := capacity, races := races } } }

def Manager.plan (m : Manager) (i : QueueItem) : List Move := m.runtime.plan m.worker.latches.length i

def Manager.signal (m : Manager) : Manager :=
  { m with stopped := true, worker := { m.worker with stopping := true } }

theorem Manager.start_eq (m : Manager) : m.start = { m with handle := m.start.handle } := by
  unfold Manager.start
  split <;> rfl

theorem Manager.send_open {m : Manager} {i : QueueItem} (h : m.queueOpen = true) :
    (m.send i).2 = { m with queue := m.queue ++ [i] } := by
  simp only [Manager.send, h, ↓reduceIte]

theorem Manager.send_closed {m : Manager} {i : QueueItem} (h : m.queueOpen = false) : (m.send i).2 = m := by
  simp only [Manager.send, h, Bool.false_eq_true, ↓reduceIte]

/-- Where a worker stands: at the top of its loop, ready for an item or a stop, with an item in flight and these
moves left, with an error to tell, or at its end. -/
inductive Post
  | top
  | waiting
  | busy (serial : Nat) (item : QueueItem) (moves : List Move) (settled : Bool)
  | failing (e : ExecutionError)
  | ended

structure Crew where
  manager : Manager := {}
  posts : List Post := []
  held : Option Nat := none
  /-- How many stops have closed the signal and not yet taken the handle. -/
  stopping : Nat := 0
  joining : Option Nat := none
  begun : List QueueItem := []
  log : List (Nat × Call) := []

inductive Deed
  | start
  | signal
  | take
  | join
  | send (i : QueueItem)
  | close
  | drop
  | look (n : Nat)
  | pick (n : Nat)
  | leave (n : Nat)
  | move (n : Nat)
  | finish (n : Nat)
  | report (n : Nat)

def Deed.isWork : Deed → Bool
  | .look _ | .pick _ | .leave _ | .move _ | .finish _ | .report _ => true
  | _ => false

namespace Crew

def new (config : Config) (runtime : CollectionRuntime) (capacity : Option Nat) (races : List Bool) : Crew :=
  { manager := .new config runtime capacity races }

variable (s : Crew)

def post (n : Nat) (p : Post) : Crew := { s with posts := s.posts.set n p }

def spawn : Crew :=
  { s with manager := s.manager.start, posts := s.posts ++ [.top], held := some s.posts.length }

def release (left : Nat) : Crew :=
  { s with manager := { s.manager with handle := .none }, held := none, joining := s.held, stopping := left }

def begin (n : Nat) (i : QueueItem) (rest : List QueueItem) : Crew :=
  { s with
    manager := { s.manager with queue := rest, worker := s.manager.worker.begin i }
    posts := s.posts.set n (.busy s.manager.worker.latches.length i (s.manager.plan i) i.propertyError.isSome)
    begun := s.begun ++ [i] }

def act (n serial : Nat) (i : QueueItem) (m : Move) (rest : List Move) (settled : Bool) : Crew :=
  { s with
    manager := { s.manager with worker := s.manager.worker.act serial i m }
    posts := s.posts.set n (.busy serial i rest settled)
    log := s.log ++ (s.manager.worker.calls serial i m).map (serial, ·) }

def settle (n serial : Nat) (i : QueueItem) : Crew :=
  { s with
    manager := { s.manager with worker := (s.manager.worker.wrapUp s.manager.config serial i).2 }
    posts := s.posts.set n (.busy serial i
      (QueueItem.failures timeoutMessage (s.manager.worker.wrapUp s.manager.config serial i).1) true) }

def fail (n : Nat) (e : ExecutionError) : Crew :=
  { s with
    manager := { s.manager with
      handle := if s.held = some n then .ended else s.manager.handle
      errors := s.manager.errors ++ [e]
      worker := s.manager.worker.note e.event }
    posts := s.posts.set n .ended }

def step : Deed → Option Crew
  | .start =>
    match s.joining, s.held with
    | none, none => some s.spawn
    | none, some _ => some s
    | some _, _ => none
  | .signal => some { s with manager := s.manager.signal, stopping := s.stopping + 1 }
  | .take =>
    match s.joining, s.stopping with
    | none, left + 1 => some (s.release left)
    | _, _ => none
  | .join =>
    match s.joining.bind (s.posts[·]?) with
    | some .ended => some { s with joining := none }
    | _ => none
  | .send i => if s.manager.queueOpen then some { s with manager := (s.manager.send i).2 } else none
  | .close => some { s with manager := { s.manager with queueOpen := false } }
  | .drop => some { s with manager := s.manager.dropResults }
  | .look n =>
    match s.posts[n]? with
    | some .top => some (s.post n (if s.manager.stopped then .ended else .waiting))
    | _ => none
  | .pick n =>
    match s.posts[n]?, s.manager.queue with
    | some .waiting, i :: rest => some (s.begin n i rest)
    | _, _ => none
  | .leave n =>
    match s.posts[n]? with
    | some .waiting =>
      if s.manager.stopped || s.manager.queue.isEmpty && !s.manager.queueOpen then some (s.post n .ended) else none
    | _ => none
  | .move n =>
    match s.posts[n]? with
    | some (.busy serial i (m :: rest) settled) =>
      match m.fault with
      | some e => some (s.post n (.failing e))
      | none => some (s.act n serial i m rest settled)
    | _ => none
  | .finish n =>
    match s.posts[n]? with
    | some (.busy serial i [] settled) => some (if settled then s.post n .top else s.settle n serial i)
    | _ => none
  | .report n =>
    match s.posts[n]? with
    | some (.failing e) => some (s.fail n e)
    | _ => none

def run (deeds : List Deed) : Option Crew := deeds.foldlM step s

def Works (t : Crew) : Prop := ∃ deeds, (∀ d ∈ deeds, d.isWork = true) ∧ s.run deeds = some t

inductive Turn : Deed → Crew → Prop
  | spawn : s.joining = none → s.held = none → Turn .start s.spawn
  | keep {n : Nat} : s.joining = none → s.held = some n → Turn .start s
  | signal : Turn .signal { s with manager := s.manager.signal, stopping := s.stopping + 1 }
  | take {left : Nat} : s.joining = none → s.stopping = left + 1 → Turn .take (s.release left)
  | join {n : Nat} : s.joining = some n → s.posts[n]? = some .ended → Turn .join { s with joining := none }
  | send (i : QueueItem) : s.manager.queueOpen = true →
    Turn (.send i) { s with manager := { s.manager with queue := s.manager.queue ++ [i] } }
  | close : Turn .close { s with manager := { s.manager with queueOpen := false } }
  | drop : Turn .drop { s with manager := s.manager.dropResults }
  | look {n : Nat} : s.posts[n]? = some .top →
    Turn (.look n) (s.post n (if s.manager.stopped then .ended else .waiting))
  | pick {n : Nat} {i : QueueItem} {rest : List QueueItem} : s.posts[n]? = some .waiting → s.manager.queue = i :: rest →
    Turn (.pick n) (s.begin n i rest)
  | leave {n : Nat} : s.posts[n]? = some .waiting →
    s.manager.stopped = true ∨ s.manager.queue = [] ∧ s.manager.queueOpen = false → Turn (.leave n) (s.post n .ended)
  | act {n serial : Nat} {i : QueueItem} {m : Move} {rest : List Move} {settled : Bool} :
    s.posts[n]? = some (.busy serial i (m :: rest) settled) → m.fault = none →
    Turn (.move n) (s.act n serial i m rest settled)
  | halt {n serial : Nat} {i : QueueItem} {m : Move} {rest : List Move} {settled : Bool} {e : ExecutionError} :
    s.posts[n]? = some (.busy serial i (m :: rest) settled) → m.fault = some e →
    Turn (.move n) (s.post n (.failing e))
  | settle {n serial : Nat} {i : QueueItem} : s.posts[n]? = some (.busy serial i [] false) →
    Turn (.finish n) (s.settle n serial i)
  | finish {n serial : Nat} {i : QueueItem} : s.posts[n]? = some (.busy serial i [] true) →
    Turn (.finish n) (s.post n .top)
  | report {n : Nat} {e : ExecutionError} : s.posts[n]? = some (.failing e) → Turn (.report n) (s.fail n e)

variable {s} {s' : Crew} {d : Deed} {deeds : List Deed}

theorem turn_of_step (h : s.step d = some s') : s.Turn d s' := by
  cases d with
  | start =>
    simp only [step] at h
    split at h
    · rename_i hj hh
      exact Option.some.inj h ▸ .spawn hj hh
    · rename_i hj hh
      exact Option.some.inj h ▸ .keep hj hh
    · cases h
  | signal => exact Option.some.inj h ▸ .signal
  | take =>
    simp only [step] at h
    split at h
    · rename_i hj hs
      exact Option.some.inj h ▸ .take hj hs
    · cases h
  | join =>
    simp only [step] at h
    split at h
    · rename_i hended
      obtain ⟨n, hj, hp⟩ := Option.bind_eq_some_iff.mp hended
      exact Option.some.inj h ▸ .join hj hp
    · cases h
  | send i =>
    obtain ⟨hopen, hs⟩ := Option.ite_none_right_eq_some.mp h
    rw [Manager.send_open hopen] at hs
    exact Option.some.inj hs ▸ .send i hopen
  | close => exact Option.some.inj h ▸ .close
  | drop => exact Option.some.inj h ▸ .drop
  | look n =>
    simp only [step] at h
    split at h
    · rename_i hp
      exact Option.some.inj h ▸ .look hp
    · cases h
  | pick n =>
    simp only [step] at h
    split at h
    · rename_i hp hq
      exact Option.some.inj h ▸ .pick hp hq
    · cases h
  | leave n =>
    simp only [step] at h
    split at h
    · rename_i hp
      obtain ⟨hend, hs⟩ := Option.ite_none_right_eq_some.mp h
      exact Option.some.inj hs ▸ .leave hp (by simpa using hend)
    · cases h
  | move n =>
    simp only [step] at h
    split at h
    · rename_i hp
      split at h
      · rename_i hf
        exact Option.some.inj h ▸ .halt hp hf
      · rename_i hf
        exact Option.some.inj h ▸ .act hp hf
    · cases h
  | finish n =>
    simp only [step] at h
    split at h
    · rename_i settled hp
      cases settled with
      | true => exact Option.some.inj h ▸ .finish hp
      | false => exact Option.some.inj h ▸ .settle hp
    · cases h
  | report n =>
    simp only [step] at h
    split at h
    · rename_i hp
      exact Option.some.inj h ▸ .report hp
    · cases h

theorem step_of_turn (h : s.Turn d s') : s.step d = some s' := by
  cases h with
  | spawn hj hh => simp only [step, hj, hh]
  | keep hj hh => simp only [step, hj, hh]
  | signal => rfl
  | take hj hs => simp only [step, hj, hs]
  | join hj hp => simp only [step, hj, Option.bind_some, hp]
  | send i hopen => simp only [step, Manager.send_open hopen, hopen, ↓reduceIte]
  | close => rfl
  | drop => rfl
  | look hp => simp only [step, hp]
  | pick hp hq => simp only [step, hp, hq]
  | leave hp hend =>
    simp only [step, hp]
    exact if_pos (by simpa using hend)
  | act hp hf => simp only [step, hp, hf]
  | halt hp hf => simp only [step, hp, hf]
  | settle hp =>
    simp only [step, hp]
    rfl
  | finish hp => simp only [step, hp, ↓reduceIte]
  | report hp => simp only [step, hp]

theorem run_append {xs ys : List Deed} : s.run (xs ++ ys) = (s.run xs).bind (run · ys) := List.foldlM_append

theorem run_concat : s.run (deeds ++ [d]) = some s' ↔ ∃ mid, s.run deeds = some mid ∧ mid.step d = some s' := by
  rw [run_append, Option.bind_eq_some_iff]
  simp [run]

theorem run_cons : s.run (d :: deeds) = some s' ↔ ∃ mid, s.step d = some mid ∧ mid.run deeds = some s' :=
  Option.bind_eq_some_iff

theorem run_invariant {P : Crew → Prop} (h : s.run deeds = some s') (hs : P s)
    (hturn : ∀ d ∈ deeds, ∀ s s', P s → s.Turn d s' → P s') : P s' := by
  induction deeds generalizing s with
  | nil => exact Option.some.inj h ▸ hs
  | cons d rest ih =>
    obtain ⟨mid, hmid, hrest⟩ := run_cons.mp h
    exact ih hrest (hturn d List.mem_cons_self s mid hs (turn_of_step hmid)) fun d hd =>
      hturn d (List.mem_cons_of_mem _ hd)

theorem Works.refl (s : Crew) : s.Works s := ⟨[], by simp, rfl⟩

theorem Works.step (hd : d.isWork = true) (h : s.step d = some s') : s.Works s' :=
  ⟨[d], by simpa using hd, by simpa [run] using h⟩

theorem Works.trans {s'' : Crew} (h : s.Works s') (h' : s'.Works s'') : s.Works s'' := by
  obtain ⟨xs, hxs, hrun⟩ := h
  obtain ⟨ys, hys, hrun'⟩ := h'
  refine ⟨xs ++ ys, fun d hd => ?_, by rw [run_append, hrun]; exact hrun'⟩
  rcases List.mem_append.mp hd with hd | hd
  · exact hxs d hd
  · exact hys d hd

end Crew

end Compliance
