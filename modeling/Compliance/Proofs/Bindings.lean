import Compliance.Execution.Manager
import Compliance.Proofs.Service

namespace Compliance

namespace ExecutionQuery

variable {q : ExecutionQuery} {results : NameMap RawData} {name text : String} {id : CodeId} {v : Json.Value}

def Yields (results : NameMap RawData) (id : CodeId) (v : Json.Value) : Prop :=
  ∃ d, results.get? id = some d ∧ d.error = none ∧ d.value = v

def Faults (results : NameMap RawData) (id : CodeId) (text : String) : Prop :=
  (∃ d, results.get? id = some d ∧ d.error = some text) ∨ results.get? id = none ∧ text = "no result for " ++ id

def Supplied (q : ExecutionQuery) (results : NameMap RawData) : Prop :=
  ∀ name id, q.properties.get? name = some id → ∃ v, Yields results id v

structure FirstFault (q : ExecutionQuery) (results : NameMap RawData) (name text : String) : Prop where
  faults : ∃ id, q.properties.get? name = some id ∧ Faults results id text
  least : ∀ name' id text', q.properties.get? name' = some id → Faults results id text' → name ≤ name'

def bound (results : NameMap RawData) (id : CodeId) : RawData :=
  (results.get? id).getD (.ofError ("no result for " ++ id))

theorem yields_iff : Yields results id v ↔ (bound results id).error = none ∧ (bound results id).value = v := by
  cases hr : results.get? id <;> simp [Yields, bound, hr, RawData.ofError]

theorem faults_iff : Faults results id text ↔ (bound results id).error = some text := by
  cases hr : results.get? id <;> simp [Faults, bound, hr, RawData.ofError, eq_comm]

theorem get?_bind : (q.bind results).properties.get? name = (q.properties.get? name).map (bound results) :=
  NameMap.get?_mapValues

theorem propertyError_bind_eq_none : (q.bind results).propertyError = none ↔ q.Supplied results := by
  have hfault : ∀ id, (¬∃ v, Yields results id v) ↔ (bound results id).error.isSome = true := by
    intro id
    rw [Option.isSome_iff_ne_none]
    simp only [yields_iff, exists_and_left, exists_eq', and_true, ne_eq]
  rw [QueueItem.propertyError_eq_none, not_iff_comm]
  simp only [QueueItem.Failed, get?_bind, Supplied, not_forall, hfault]
  symm
  constructor
  · rintro ⟨name, d, hd, herror⟩
    obtain ⟨id, hid, rfl⟩ := Option.map_eq_some_iff.mp hd
    exact ⟨name, id, hid, herror⟩
  · rintro ⟨name, id, hid, herror⟩
    exact ⟨name, _, Option.map_eq_some_iff.mpr ⟨id, hid, rfl⟩, herror⟩

theorem firstFault_of_firstFailure (h : (q.bind results).FirstFailure name text) : q.FirstFault results name text where
  faults := by
    obtain ⟨d, hd, herror⟩ := h.failed
    obtain ⟨id, hid, rfl⟩ := Option.map_eq_some_iff.mp (get?_bind.symm.trans hd)
    exact ⟨id, hid, faults_iff.mpr herror⟩
  least name' id text' hid hfault := by
    refine h.least name' (bound results id) ?_ (Option.isSome_of_eq_some (faults_iff.mp hfault))
    rw [get?_bind, hid, Option.map_some]

theorem exists_firstFault (h : ¬q.Supplied results) : ∃ name text, q.FirstFault results name text ∧
    (q.bind results).propertyError = some (QueueItem.propertyMessage name text) := by
  obtain ⟨message, hp⟩ := Option.ne_none_iff_exists'.mp (mt propertyError_bind_eq_none.mp h)
  obtain ⟨name, text, hfirst, rfl⟩ := QueueItem.exists_firstFailure hp
  exact ⟨name, text, firstFault_of_firstFailure hfirst, hp⟩

theorem get?_propertyValues_bind (h : q.Supplied results) :
    (q.bind results).propertyValues.get? name = some v ↔
      ∃ id, q.properties.get? name = some id ∧ Yields results id v := by
  simp only [QueueItem.propertyValues, NameMap.get?_mapValues, get?_bind, Option.map_map, Option.map_eq_some_iff,
    Function.comp_apply]
  refine exists_congr fun id => and_congr_right fun hid => ?_
  obtain ⟨u, hu⟩ := h name id hid
  rw [yields_iff, (yields_iff.mp hu).1]
  simp

theorem keys_propertyValues_bind : (q.bind results).propertyValues.keys = q.properties.keys := by
  simp [QueueItem.propertyValues, bind, NameMap.mapValues, Keyed.keys, Function.comp_def]

end ExecutionQuery

namespace Outlet

variable {o : Outlet} {r : RawResult}

def sendAll (o : Outlet) (stopping : Bool) (l : List RawResult) : Outlet := l.foldl (·.send stopping ·) o

theorem held_sendAll (ho : o.isOpen = true) (l : List RawResult) : (o.sendAll false l).held = o.held ++ l := by
  induction l generalizing o with
  | nil => exact (List.append_nil _).symm
  | cons r rest ih =>
    have hrest : ((o.deliver r).sendAll false rest).held = o.held ++ [r] ++ rest := ih (o := o.deliver r) ho
    rw [sendAll, List.foldl_cons, ← sendAll, send_open ho, hrest, List.append_assoc, List.singleton_append]

end Outlet

namespace Worker

variable {w : Worker} {serial : Nat} {i : QueueItem} {config : Config} {runtime : CollectionRuntime} {moves : List Move}

theorem reportEach_outlet (n : Nat) (keys : List Checksum) (message : String) :
    (w.reportEach n keys (.ofError message)).outlet = w.outlet.sendAll w.stopping (keys.map (.failed message)) := by
  induction keys generalizing w with
  | nil => rfl
  | cons k rest ih => exact ih

theorem perform_invoked : (perform serial i moves w).2.invoked = w.invoked := by
  induction moves generalizing w with
  | nil => rfl
  | cons m rest ih =>
    cases he : m.ends with
    | false => rw [perform_cons he, ih, act_invoked]
    | true =>
      cases m with
      | fail context => rfl
      | panic text => rfl
      | _ => cases he

theorem settle_invoked : (w.settle config serial i).invoked = w.invoked := by
  obtain ⟨latches, events, hw, -⟩ := exists_wrapUp w config serial i
  rw [settle_eq, reportEach_invoked, hw]

theorem execute_invoked (h : i.propertyError = none) :
    (w.execute config runtime i).2.invoked = w.invoked ++ [(i.code.id, i.propertyValues)] := by
  have hrun : (perform w.latches.length i (runtime.moves w.latches.length i) ((w.enroll i).invoke i)).2.invoked =
      w.invoked ++ [(i.code.id, i.propertyValues)] := perform_invoked
  rw [execute_performed h]
  split
  · rename_i e w' hw'
    rwa [hw'] at hrun
  · rename_i w' hw'
    rw [hw'] at hrun
    exact settle_invoked.trans hrun

/-- What comes of a query that is bound to results when it is its turn: the runtime gets its code and a value for
each property, or every datapoint the error of the first property that has none. -/
structure Binds (w : Worker) (config : Config) (runtime : CollectionRuntime) (q : ExecutionQuery) (results : NameMap RawData) :
    Prop where
  handed_iff : (w.execute config runtime (q.bind results)).2.invoked ≠ w.invoked ↔ q.Supplied results
  handed : q.Supplied results → ∃ values : NameMap Json.Value,
    (w.execute config runtime (q.bind results)).2.invoked = w.invoked ++ [(q.code.id, values)] ∧
    values.keys = q.properties.keys ∧
    ∀ name v, values.get? name = some v ↔ ∃ id, q.properties.get? name = some id ∧ ExecutionQuery.Yields results id v
  withheld : ¬q.Supplied results → ∃ name text answers, q.FirstFault results name text ∧
    answers = q.code.checksums.map (fun k => ⟨k, .ofError ("property " ++ name ++ " errored: " ++ text)⟩) ∧
    (w.execute config runtime (q.bind results)).1 = none ∧
    (w.execute config runtime (q.bind results)).2.outlet = w.outlet.sendAll w.stopping answers ∧
    (w.outlet.isOpen = true → w.stopping = false →
      (w.execute config runtime (q.bind results)).2.outlet.held = w.outlet.held ++ answers)

/-- A query is run with all of its properties or not at all, whatever worker and runtime it meets: a runtime may have
any moves for any item, reports, failures and panics among them. -/
theorem execute_binds (w : Worker) (config : Config) (runtime : CollectionRuntime) (q : ExecutionQuery)
    (results : NameMap RawData) : w.Binds config runtime q results where
  handed_iff := by
    by_cases hs : q.Supplied results
    · simp [execute_invoked (ExecutionQuery.propertyError_bind_eq_none.mpr hs), hs]
    · obtain ⟨name, text, -, hp⟩ := ExecutionQuery.exists_firstFault hs
      rw [execute_failed hp, reportEach_invoked]
      simp [hs, enroll]
  handed hs := ⟨_, execute_invoked (ExecutionQuery.propertyError_bind_eq_none.mpr hs),
    ExecutionQuery.keys_propertyValues_bind, fun name v => ExecutionQuery.get?_propertyValues_bind hs⟩
  withheld hs := by
    obtain ⟨name, text, hfirst, hp⟩ := ExecutionQuery.exists_firstFault hs
    have houtlet := (w.enroll (q.bind results)).reportEach_outlet w.latches.length q.code.checksums
      (QueueItem.propertyMessage name text)
    rw [execute_failed hp]
    refine ⟨name, text, _, hfirst, rfl, rfl, houtlet, fun ho hstop => (congrArg Outlet.held houtlet).trans ?_⟩
    rw [show (w.enroll (q.bind results)).stopping = false from hstop]
    exact Outlet.held_sendAll ho _

end Worker

end Compliance
