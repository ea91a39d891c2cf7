import Compliance.Proofs.Service
import Compliance.Proofs.Unheard

namespace Compliance

def ownMoves : List String → List Move → List Move
  | _, [] => []
  | names, .retain name :: rest => .retain name :: ownMoves (name :: names) rest
  | names, .late name key data :: rest =>
    if name ∈ names then .late name key data :: ownMoves names rest else ownMoves names rest
  | names, m :: rest => m :: ownMoves names rest

def retained : List String → List Move → List String
  | names, [] => names
  | names, .retain name :: rest => retained (name :: names) rest
  | names, _ :: rest => retained names rest

def Script.own (s : Script) : Script where
  construct := ownMoves [] s.construct
  run := ownMoves (retained [] s.construct) s.run

def CollectionRuntime.own (r : CollectionRuntime) : CollectionRuntime where
  script serial i := (r.script serial i).own

theorem ownMoves_append (names : List String) (moves later : List Move) :
    ownMoves names (moves ++ later) = ownMoves names moves ++ ownMoves (retained names moves) later := by
  induction moves generalizing names with
  | nil => rfl
  | cons m rest ih =>
    cases m with
    | late name key data =>
      simp only [List.cons_append, ownMoves, retained]
      split
      · rw [ih, List.cons_append]
      · exact ih names
    | retain name => exact congrArg _ (ih (name :: names))
    | _ => exact congrArg _ (ih names)

theorem CollectionRuntime.own_moves (r : CollectionRuntime) (serial : Nat) (i : QueueItem) :
    r.own.moves serial i = ownMoves [] (r.moves serial i) := by
  rw [moves, moves, ownMoves_append]
  rfl

namespace Worker

variable {w w' : Worker} {serial n : Nat} {i : QueueItem} {m : Move} {moves : List Move} {k : Checksum}

theorem mem_latch_report (n' : Nat) (key : Checksum) (data : RawData) :
    k ∈ ((w.report n' key data).latch n).pending ↔ k ∈ (w.latch n).pending ∧ (n' = n → k ≠ key) := by
  by_cases hn : n' = n
  · subst hn
    cases hl : w.latches[n']? with
    | none =>
      have hempty : k ∉ (Keyed.empty : NameSet) := NameSet.not_mem_empty
      simp [report, latch, List.getD_eq_getElem?_getD, hl, hempty]
    | some l => simp [report, latch, List.getD_eq_getElem?_getD, hl, Latch.mem_pending_done]
  · simp [report, latch, List.getD_eq_getElem?_getD, hn]

theorem mem_latch_reportEach (n' : Nat) (keys : List Checksum) (data : RawData) :
    k ∈ ((w.reportEach n' keys data).latch n).pending ↔ k ∈ (w.latch n).pending ∧ (n' = n → k ∉ keys) := by
  induction keys generalizing w with
  | nil => simp [reportEach]
  | cons key rest ih =>
    rw [show w.reportEach n' (key :: rest) data = (w.report n' key data).reportEach n' rest data from rfl, ih,
      mem_latch_report, List.mem_cons, not_or, and_assoc, ← forall_and]

theorem mem_latch_act : k ∈ ((w.act serial i m).latch n).pending ↔
    k ∈ (w.latch n).pending ∧ k ∉ (resultsBy n (w.calls serial i m)).map (·.checksum) := by
  cases m with
  | report key data =>
    rw [act, mem_latch_report, calls]
    by_cases hn : serial = n <;> simp [resultsBy, hn]
  | reportAll =>
    rw [act, mem_latch_reportEach, calls]
    by_cases hn : serial = n
    · subst hn
      simp [resultsBy_map]
    · simp [resultsBy, hn, Function.comp_def]
  | late name key data =>
    simp only [act, calls]
    cases w.kept.lookup name with
    | none => simp
    | some n' =>
      rw [mem_latch_report]
      by_cases hn : n' = n <;> simp [resultsBy, hn]
  | _ => simp [act, calls, latch]

theorem mem_latch_perform : k ∈ ((perform serial i moves w).2.latch n).pending ↔
    k ∈ (w.latch n).pending ∧ k ∉ (resultsBy n (performCalls serial i moves w)).map (·.checksum) := by
  induction moves generalizing w with
  | nil => simp [perform, performCalls]
  | cons m rest ih =>
    cases hf : m.fault with
    | some e => simp [perform_fault hf, performCalls_fault hf]
    | none =>
      have hends := Move.fault_eq_none.mp hf
      rw [perform_cons hends, performCalls_cons hends, ih, mem_latch_act, resultsBy_append, List.map_append,
        List.mem_append, not_or, and_assoc]

def Quiet (w : Worker) (serial : Nat) : Prop := ∀ n, n ≠ serial → ∀ k, k ∉ (w.latch n).pending

theorem Quiet.act (h : w.Quiet serial) (i : QueueItem) (m : Move) : (w.act serial i m).Quiet serial := fun n hn k hk =>
  h n hn k (mem_latch_act.mp hk).1

theorem Quiet.perform (h : w.Quiet serial) (i : QueueItem) (moves : List Move) :
    (perform serial i moves w).2.Quiet serial := fun n hn k hk => h n hn k (mem_latch_perform.mp hk).1

theorem report_muted (h : ∀ k, k ∉ (w.latch n).pending) (key : Checksum) (data : RawData) :
    (w.report n key data).muted = w.muted := by
  have hlatches : w.latches.modify n (·.done key) = w.latches := by
    apply List.ext_getElem?
    intro j
    by_cases hj : n = j
    · subst hj
      cases hl : w.latches[n]? with
      | none => simp [hl]
      | some l =>
        have hlatch : w.latch n = l := by simp [latch, List.getD_eq_getElem?_getD, hl]
        simp [hl, Latch.done_of_not_mem (hlatch ▸ h key)]
    · simp [hj]
  simp only [muted, report, hlatches]

def ownCalls (serial : Nat) (calls : List Call) : List Call := calls.filter (·.1 == serial)

theorem ownCalls_append (calls later : List Call) :
    ownCalls serial (calls ++ later) = ownCalls serial calls ++ ownCalls serial later := List.filter_append _ _

theorem ownCalls_self {calls : List Call} (h : ∀ c ∈ calls, c.1 = serial) : ownCalls serial calls = calls :=
  List.filter_eq_self.mpr fun c hc => beq_iff_eq.mpr (h c hc)

theorem ownCalls_map {α : Type} (f : α → RawResult) (l : List α) :
    ownCalls serial (l.map fun a => (serial, f a)) = l.map fun a => (serial, f a) :=
  ownCalls_self fun c hc => by
    obtain ⟨a, -, rfl⟩ := List.mem_map.mp hc
    rfl

theorem ownCalls_settleCalls (w : Worker) (serial : Nat) : ownCalls serial (w.settleCalls serial) = w.settleCalls serial := by
  unfold settleCalls
  split
  · rfl
  · exact ownCalls_map _ _

theorem perform_own (i : QueueItem) (names : List String) (moves : List Move) (hw : w.muted = w'.muted) (hquiet : w.Quiet serial)
    (hnames : ∀ name, w.kept.lookup name = some serial ↔ name ∈ names) :
    (perform serial i moves w).1 = (perform serial i (ownMoves names moves) w').1 ∧
      (perform serial i moves w).2.muted = (perform serial i (ownMoves names moves) w').2.muted ∧
      performCalls serial i (ownMoves names moves) w' = ownCalls serial (performCalls serial i moves w) := by
  induction moves generalizing w w' names with
  | nil => exact ⟨rfl, hw, rfl⟩
  | cons m rest ih =>
    -- a move of its own is made in both runs, and so are the calls that it makes
    have hown : ∀ names', m.ends = false → ownMoves names (m :: rest) = m :: ownMoves names' rest →
        (∀ c ∈ w.calls serial i m, c.1 = serial) →
        (∀ name, (w.act serial i m).kept.lookup name = some serial ↔ name ∈ names') →
        (perform serial i (m :: rest) w).1 = (perform serial i (ownMoves names (m :: rest)) w').1 ∧
          (perform serial i (m :: rest) w).2.muted = (perform serial i (ownMoves names (m :: rest)) w').2.muted ∧
          performCalls serial i (ownMoves names (m :: rest)) w' = ownCalls serial (performCalls serial i (m :: rest) w) := by
      intro names' hends hmoves hcalls hnames'
      obtain ⟨herror, hmuted, hrest⟩ := ih names' (act_congr hw) (hquiet.act i m) hnames'
      rw [hmoves, perform_cons hends, perform_cons hends, performCalls_cons hends, performCalls_cons hends,
        ownCalls_append, ownCalls_self hcalls, hrest, calls_congr hw]
      exact ⟨herror, hmuted, rfl⟩
    cases m with
    | report key data => exact hown names rfl rfl (by simp [calls]) hnames
    | reportAll => exact hown names rfl rfl (by simp [calls]) (by simpa [act, reportEach_kept] using hnames)
    | retain name => exact hown (name :: names) rfl rfl (by simp [calls]) (lookup_retain hnames name)
    | late name key data =>
      by_cases hname : name ∈ names
      · have hlookup := (hnames name).mpr hname
        refine hown names rfl (by simp [ownMoves, hname]) (by simp [calls, hlookup]) fun name' => ?_
        rw [act, hlookup]
        exact hnames name'
      · have hlookup : w.kept.lookup name ≠ some serial := fun hl => hname ((hnames name).mp hl)
        have hmoves : ownMoves names (.late name key data :: rest) = ownMoves names rest := by simp [ownMoves, hname]
        rw [hmoves, perform_cons rfl, performCalls_cons rfl, ownCalls_append]
        cases hl : w.kept.lookup name with
        | none =>
          simp only [act, calls, hl]
          exact ih names hw hquiet hnames
        | some n =>
          have hn : n ≠ serial := fun hn => hlookup (hn ▸ hl)
          -- the handle is that of an earlier item, where nothing is awaited any more
          have hforeign : ownCalls serial [(n, ⟨key, data⟩)] = [] := by simp [ownCalls, hn]
          simp only [act, calls, hl, hforeign, List.nil_append]
          exact ih names ((report_muted (hquiet n hn) key data).trans hw) (fun n' hn' k hk =>
            hquiet n' hn' k ((mem_latch_report n key data).mp hk).1) hnames
    | pause => exact hown names rfl rfl (by simp [calls]) hnames
    | fail context => exact ⟨rfl, hw, rfl⟩
    | panic text => exact ⟨rfl, hw, rfl⟩

theorem mem_latch_decommission :
    k ∈ ((w.decommission serial).latch n).pending ↔ n ≠ serial ∧ k ∈ (w.latch n).pending := by
  by_cases hn : serial = n
  · subst hn
    have hempty : k ∉ (Keyed.empty : NameSet) := NameSet.not_mem_empty
    by_cases hlt : serial < w.latches.length
    · simp [decommission, latch, List.getD_eq_getElem?_getD, hlt, Latch.decommission, hempty]
    · simp [decommission, latch, List.getD_eq_getElem?_getD, hlt, hempty]
  · simp [decommission, latch, List.getD_eq_getElem?_getD, hn, Ne.symm hn]

theorem Quiet.wrapUp (h : w.Quiet serial) (config : Config) (i : QueueItem) (n : Nat) (k : Checksum) :
    k ∉ ((w.wrapUp config serial i).2.latch n).pending := by
  have hmeasure : (w.measure config).Quiet serial := by
    unfold measure
    split
    · exact h
    · exact h
  unfold Worker.wrapUp
  dsimp only
  generalize w.measure config = v at hmeasure
  split
  · rename_i hempty
    have hquiet : k ∉ (v.latch n).pending := by
      by_cases hn : n = serial
      · subst hn
        intro hk
        simp [NameSet.isEmpty_of_mem hk] at hempty
      · exact hmeasure n hn k
    dsimp only
    split
    · exact hquiet
    · exact hquiet
  · have hquiet : k ∉ ((v.decommission serial).latch n).pending := fun hk =>
      hmeasure n (mem_latch_decommission.mp hk).1 k (mem_latch_decommission.mp hk).2
    split
    · exact hquiet
    · exact hquiet

theorem Quiet.settle (h : w.Quiet serial) (config : Config) (i : QueueItem) (n : Nat) (k : Checksum) :
    k ∉ ((w.settle config serial i).latch n).pending := by
  rw [settle_eq, mem_latch_reportEach]
  exact fun hk => h.wrapUp config i n k hk.1

theorem settle_congr (h : w.muted = w'.muted) (config : Config) (serial : Nat) (i : QueueItem) :
    (w.settle config serial i).muted = (w'.settle config serial i).muted ∧ w.settleCalls serial = w'.settleCalls serial := by
  obtain ⟨hmissing, hmuted⟩ := wrapUp_congr h config serial i
  rw [settle_eq, settle_eq, hmissing]
  refine ⟨reportEach_congr hmuted _ _ _, ?_⟩
  rw [eq_of_muted h]
  rfl

theorem enroll_quiet (h : ∀ n k, k ∉ (w.latch n).pending) : (w.enroll i).Quiet w.latches.length := by
  intro n hn k
  rcases Nat.lt_or_gt_of_ne hn with hlt | hgt
  · have hsame : (w.enroll i).latch n = w.latch n := by
      simp [enroll, latch, List.getD_eq_getElem?_getD, List.getElem?_append_left hlt]
    exact hsame ▸ h n k
  · have hnone : (w.enroll i).latch n = {} := by
      simp only [enroll, latch, List.getD_eq_getElem?_getD]
      rw [List.getElem?_eq_none (by simp only [List.length_append, List.length_singleton]; omega)]
      rfl
    exact hnone ▸ NameSet.not_mem_empty

variable {config : Config} {runtime : CollectionRuntime}

theorem not_kept_of_lt (h : ∀ e ∈ w.kept, e.2 < n) (name : String) : w.kept.lookup name ≠ some n := by
  intro hl
  obtain ⟨before, after, hkept, -⟩ := List.lookup_eq_some_iff.mp hl
  exact Nat.lt_irrefl _ (h (name, n) (by simp [hkept]))

theorem execute_own (config : Config) (runtime : CollectionRuntime) (i : QueueItem) (hw : w.muted = w'.muted)
    (hquiet : ∀ n k, k ∉ (w.latch n).pending)
    (hkept : ∀ e ∈ w.kept, e.2 < w.latches.length) :
    (w.execute config runtime i).1 = (w'.execute config runtime.own i).1 ∧
      (w.execute config runtime i).2.muted = (w'.execute config runtime.own i).2.muted ∧
      w'.executeCalls runtime.own i = ownCalls w.latches.length (w.executeCalls runtime i) := by
  have hlength : w'.latches.length = w.latches.length := by rw [eq_of_muted hw]
  have henroll : (w.enroll i).muted = (w'.enroll i).muted := by
    rw [eq_of_muted hw]
    rfl
  cases hfailed : i.propertyError with
  | some message =>
    rw [execute_failed hfailed, execute_failed hfailed]
    simp only [executeCalls, hfailed, hlength]
    exact ⟨trivial, reportEach_congr henroll _ _ _, (ownCalls_map _ _).symm⟩
  | none =>
    have hinvoke : ((w.enroll i).invoke i).muted = ((w'.enroll i).invoke i).muted := by
      rw [eq_of_muted hw]
      rfl
    obtain ⟨herror, hmuted, hcalls⟩ := perform_own i [] (runtime.moves w.latches.length i) hinvoke
      (enroll_quiet (i := i) hquiet) fun name => iff_of_false (not_kept_of_lt hkept name) List.not_mem_nil
    rw [← CollectionRuntime.own_moves] at herror hmuted hcalls
    rw [execute_performed hfailed, execute_performed hfailed]
    simp only [executeCalls, hfailed, hlength, hcalls]
    obtain ⟨error, v, hv⟩ : ∃ error v,
        perform w.latches.length i (runtime.moves w.latches.length i) ((w.enroll i).invoke i) = (error, v) :=
      ⟨_, _, rfl⟩
    obtain ⟨error', v', hv'⟩ : ∃ error v,
        perform w.latches.length i (runtime.own.moves w.latches.length i) ((w'.enroll i).invoke i) =
      (error, v) := ⟨_, _, rfl⟩
    rw [hv, hv'] at herror hmuted
    obtain rfl : error = error' := herror
    replace hmuted : v.muted = v'.muted := hmuted
    rw [hv, hv', ownCalls_append]
    cases error with
    | some e =>
      refine ⟨rfl, ?_, rfl⟩
      dsimp only
      rw [eq_of_muted hmuted]
      rfl
    | none =>
      obtain ⟨hsettle, hlast⟩ := settle_congr hmuted config w.latches.length i
      refine ⟨rfl, hsettle, congrArg _ ?_⟩
      dsimp only
      rw [← hlast, ownCalls_settleCalls]

theorem execute_quiet (hquiet : ∀ n k, k ∉ (w.latch n).pending) (h : (w.execute config runtime i).1 = none) (n : Nat)
    (k : Checksum) : k ∉ ((w.execute config runtime i).2.latch n).pending := by
  have henroll := enroll_quiet (i := i) hquiet
  cases hfailed : i.propertyError with
  | some message =>
    rw [execute_failed hfailed]
    dsimp only
    rw [mem_latch_reportEach]
    rintro ⟨hk, hleft⟩
    by_cases hn : w.latches.length = n
    · subst hn
      rw [enroll_latch, Latch.mem_pending_foldl_add] at hk
      exact hk.elim NameSet.not_mem_empty (hleft rfl)
    · exact henroll n (Ne.symm hn) k hk
  | none =>
    have hperform := henroll.perform i (runtime.moves w.latches.length i)
    rw [execute_performed hfailed] at h ⊢
    have hrun : (perform w.latches.length i (runtime.moves w.latches.length i)
        ((w.enroll i).invoke i)).2.Quiet w.latches.length :=
      Quiet.perform (w := (w.enroll i).invoke i) henroll i _
    obtain ⟨error, v, hv⟩ : ∃ error v,
        perform w.latches.length i (runtime.moves w.latches.length i) ((w.enroll i).invoke i) = (error, v) :=
      ⟨_, _, rfl⟩
    rw [hv] at h hrun ⊢
    cases error with
    | some e => cases h
    | none => exact Quiet.settle hrun config i n k

theorem perform_frame (w : Worker) (serial : Nat) (i : QueueItem) (moves : List Move) :
    (perform serial i moves w).2.latches.length = w.latches.length ∧
    ∀ e ∈ (perform serial i moves w).2.kept, e ∈ w.kept ∨ e.2 = serial := by
  induction moves generalizing w with
  | nil => exact ⟨rfl, fun e he => .inl he⟩
  | cons m rest ih =>
    cases hf : m.fault with
    | some e =>
      rw [perform_fault hf]
      exact ⟨rfl, fun e he => .inl he⟩
    | none =>
      rw [perform_cons (Move.fault_eq_none.mp hf)]
      obtain ⟨hlength, hkept⟩ := ih (w.act serial i m)
      exact ⟨hlength.trans act_length, fun e he => (hkept e he).elim act_kept .inr⟩

theorem settle_frame (w : Worker) (config : Config) (serial : Nat) (i : QueueItem) :
    (w.settle config serial i).latches.length = w.latches.length ∧
    (w.settle config serial i).kept = w.kept := by
  obtain ⟨latches, events, hw, hlength⟩ := w.exists_wrapUp config serial i
  rw [settle_eq, reportEach_length, reportEach_kept, hw]
  exact ⟨hlength, rfl⟩

theorem execute_kept (hkept : ∀ e ∈ w.kept, e.2 < w.latches.length) :
    ∀ e ∈ (w.execute config runtime i).2.kept, e.2 < (w.execute config runtime i).2.latches.length := by
  have henroll : (w.enroll i).latches.length = w.latches.length + 1 := by simp [enroll]
  have hlt : ∀ v : Worker, v.latches.length = w.latches.length + 1 →
      (∀ e ∈ v.kept, e ∈ w.kept ∨ e.2 = w.latches.length) → ∀ e ∈ v.kept, e.2 < v.latches.length := by
    intro v hlength hv e he
    rcases hv e he with he | he
    · have := hkept e he
      omega
    · omega
  cases hfailed : i.propertyError with
  | some message =>
    rw [execute_failed hfailed]
    refine hlt _ ((reportEach_length _ _ _).trans henroll) fun e he => .inl ?_
    rwa [reportEach_kept] at he
  | none =>
    obtain ⟨hlength, hframe⟩ := perform_frame ((w.enroll i).invoke i) w.latches.length i (runtime.moves w.latches.length i)
    rw [execute_performed hfailed]
    obtain ⟨error, v, hv⟩ : ∃ error v,
        perform w.latches.length i (runtime.moves w.latches.length i) ((w.enroll i).invoke i) = (error, v) :=
      ⟨_, _, rfl⟩
    rw [hv] at hlength hframe ⊢
    cases error with
    | some e => exact hlt (v.note e.event) (hlength.trans henroll) hframe
    | none =>
      obtain ⟨hlength', hkept'⟩ := settle_frame v config w.latches.length i
      exact hlt _ (hlength'.trans (hlength.trans henroll)) (hkept' ▸ hframe)

end Worker

namespace Manager

variable {m m' : Manager} {e : Operation} {operations : List Operation}

def muted (m : Manager) : Manager := { m with worker := m.worker.muted }

def own (m : Manager) : Manager := { m with runtime := m.runtime.own }

def made (m : Manager) : Operation → List (Nat × Call)
  | .advance => m.calls.map (m.worker.latches.length, ·)
  | _ => []

def log (m : Manager) : List Operation → List (Nat × Call)
  | [] => []
  | e :: rest => m.made e ++ (m.after e).log rest

structure Hushed (m : Manager) : Prop where
  quiet : m.handle = .live ∨ m.handle = .none ∧ m.stopped = false → ∀ n k, k ∉ (m.worker.latch n).pending
  kept : ∀ e ∈ m.worker.kept, e.2 < m.worker.latches.length

theorem hushed_new (config : Config) (runtime : CollectionRuntime) (capacity : Option Nat) (races : List Bool) :
    (new config runtime capacity races).Hushed where
  quiet _ _ _ := NameSet.not_mem_empty
  kept e he := by cases he

theorem live_of_ready (h : m.ready = true) : m.handle = .live := by
  simp only [ready, Bool.and_eq_true, beq_iff_eq] at h
  exact h.1.1

theorem Hushed.after (h : m.Hushed) (e : Operation) : (m.after e).Hushed := by
  cases e with
  | start =>
    simp only [Manager.after, Manager.start]
    split
    · rename_i hnone
      refine ⟨fun hrun => h.quiet (.inr ⟨hnone, ?_⟩), h.kept⟩
      cases hstop : m.stopped with
      | true => simp [hstop] at hrun
      | false => rfl
    · exact h
  | send i =>
    simp only [Manager.after, Manager.send]
    split
    · exact ⟨h.quiet, h.kept⟩
    · exact h
  | advance =>
    cases hr : m.ready with
    | false =>
      rw [Manager.after, advance_idle hr]
      exact h
    | true =>
      obtain ⟨i, rest, hq⟩ := exists_of_ready hr
      have hlive := live_of_ready hr
      rw [Manager.after, advance_eq hq hr]
      refine ⟨fun hrun => Worker.execute_quiet (h.quiet (.inl hlive)) ?_, Worker.execute_kept h.kept⟩
      cases herror : (m.worker.execute m.config m.runtime i).1 with
      | none => rfl
      | some e => simp [herror] at hrun
  | stop => exact ⟨fun hrun => by simp [Manager.after, Manager.stop] at hrun, h.kept⟩
  | close => exact ⟨h.quiet, h.kept⟩
  | drop => exact ⟨h.quiet, h.kept⟩

theorem exists_outlet (h : m.muted = m'.muted) : ∃ o, m' = { m with worker := { m.worker with outlet := o } } := by
  obtain ⟨config, runtime, queue, queueOpen, handle, stopped, worker, errors⟩ := m
  obtain ⟨config', runtime', queue', queueOpen', handle', stopped', worker', errors'⟩ := m'
  simp only [muted, Manager.mk.injEq] at h
  obtain ⟨rfl, rfl, rfl, rfl, rfl, rfl, hw, rfl⟩ := h
  exact ⟨worker'.outlet, by rw [Worker.eq_of_muted hw]⟩

theorem calls_idle (hr : m.ready = false) : m.calls = [] := by
  unfold calls
  split
  · rfl
  · simp only [hr, Bool.false_eq_true, ↓reduceIte]

theorem Hushed.advance_own (h : m.Hushed) (hm : m.own.muted = m'.muted) :
    m.advance.own.muted = m'.advance.muted ∧ m'.calls = Worker.ownCalls m.worker.latches.length m.calls := by
  obtain ⟨hconfig, hruntime, hqueue, hopen, hhandle, hstopped, hworker, herrors⟩ := Manager.mk.inj hm
  have hready : m'.ready = m.ready := by
    obtain ⟨o, rfl⟩ := exists_outlet hm
    rfl
  cases hr : m.ready with
  | false =>
    have hr' : m'.ready = false := hready.trans hr
    rw [advance_idle hr, advance_idle hr', calls_idle hr, calls_idle hr']
    exact ⟨hm, rfl⟩
  | true =>
    have hr' : m'.ready = true := hready.trans hr
    obtain ⟨i, rest, hq⟩ := exists_of_ready hr
    have hq' : m'.queue = i :: rest := hqueue.symm.trans hq
    obtain ⟨herror, hmuted, hcalls⟩ := Worker.execute_own m.config m.runtime i hworker
      (h.quiet (.inl (live_of_ready hr))) h.kept
    have hconfig' : m'.config = m.config := hconfig.symm
    have hruntime' : m'.runtime = m.runtime.own := hruntime.symm
    rw [advance_eq hq hr, advance_eq hq' hr', calls_eq hq hr, calls_eq hq' hr', hconfig', hruntime']
    refine ⟨?_, hcalls⟩
    simp only [Manager.own, Manager.muted, Manager.mk.injEq, ← herror]
    exact ⟨trivial, trivial, trivial, hopen, congrArg _ hhandle, hstopped, hmuted, congrArg (· ++ _) herrors⟩

theorem Hushed.own (h : m.Hushed) (hm : m.own.muted = m'.muted) (e : Operation) :
    (m.after e).own.muted = (m'.after e).muted ∧ m'.made e = (m.made e).filter fun c => c.2.1 == c.1 := by
  cases e with
  | start =>
    obtain ⟨o, rfl⟩ := exists_outlet hm
    refine ⟨?_, rfl⟩
    simp only [Manager.after, Manager.start, Manager.own]
    split <;> rfl
  | send i =>
    refine ⟨?_, rfl⟩
    have hopen' : m'.queueOpen = m.queueOpen := (congrArg Manager.queueOpen hm).symm
    cases hopen : m.queueOpen with
    | true =>
      rw [Manager.after, Manager.after, send_open hopen, send_open (hopen'.trans hopen)]
      obtain ⟨o, rfl⟩ := exists_outlet hm
      rfl
    | false =>
      rw [Manager.after, Manager.after, send_closed hopen, send_closed (hopen'.trans hopen)]
      exact hm
  | advance =>
    obtain ⟨hsame, hcalls⟩ := h.advance_own hm
    have hlength : m'.worker.latches.length = m.worker.latches.length := by
      obtain ⟨o, rfl⟩ := exists_outlet hm
      rfl
    refine ⟨hsame, ?_⟩
    rw [made, made, hcalls, hlength, Worker.ownCalls, List.filter_map]
    rfl
  | _ =>
    obtain ⟨o, rfl⟩ := exists_outlet hm
    exact ⟨rfl, rfl⟩

theorem Serving.log (h : m.Serving) (hstop : .stop ∉ operations) (hdrop : .drop ∉ operations) :
    (operations.foldl after m).worker.outlet.held = m.worker.outlet.held ++ (m.log operations).map (·.2.2) := by
  induction operations generalizing m with
  | nil => simp [Manager.log]
  | cons e rest ih =>
    obtain ⟨hstop', hstops⟩ := not_or.mp (List.mem_cons.not.mp hstop)
    obtain ⟨hdrop', hdrops⟩ := not_or.mp (List.mem_cons.not.mp hdrop)
    have hfirst : (m.after e).Serving ∧
        (m.after e).worker.outlet.held = m.worker.outlet.held ++ (m.made e).map (·.2.2) := by
      cases e with
      | start => exact ⟨.start h, by rw [Manager.after, start_eq]; simp [made]⟩
      | send i =>
        refine ⟨.send i h, ?_⟩
        simp only [Manager.after, Manager.send]
        split <;> simp [made]
      | advance =>
        refine ⟨.advance h, ?_⟩
        cases hr : m.ready with
        | false => simp [Manager.after, advance_idle hr, made, calls_idle hr]
        | true =>
          obtain ⟨i, rest, hq⟩ := exists_of_ready hr
          rw [Manager.after, advance_eq hq hr, made, calls_eq hq hr]
          simpa [Function.comp_def] using (h.worker.execute m.config m.runtime i).2
      | close => exact ⟨.close h, by simp [Manager.after, made]⟩
      | stop => exact absurd rfl hstop'
      | drop => exact absurd rfl hdrop'
    rw [List.foldl_cons, ih hfirst.1 hstops hdrops, hfirst.2, Manager.log, List.map_append, List.append_assoc]

def midway (m : Manager) (i : QueueItem) (moves : List Move) : Worker :=
  (Worker.perform m.worker.latches.length i moves ((m.worker.enroll i).invoke i)).2

def awaited (m : Manager) (w : Worker) : NameSet := (w.latch m.worker.latches.length).pending

theorem Hushed.mem_awaited (h : m.Hushed) {i : QueueItem} {moves : List Move} (hends : ∀ mv ∈ moves, mv.ends = false)
    (k : Checksum) : k ∈ m.awaited (m.midway i moves) ↔
      k ∈ i.code.checksums ∧ k ∉ (i.reports [] moves).map (·.checksum) := by
  have hfirst : ((m.worker.enroll i).invoke i).latch m.worker.latches.length = i.code.checksums.foldl Latch.add {} :=
    Worker.enroll_latch m.worker i
  have hown : resultsBy m.worker.latches.length
      (Worker.performCalls m.worker.latches.length i moves ((m.worker.enroll i).invoke i)) = i.reports [] moves :=
    Worker.resultsBy_performCalls (fun name => iff_of_false (Worker.not_kept_of_lt h.kept name) List.not_mem_nil) hends
  rw [awaited, midway, Worker.mem_latch_perform, hfirst, hown, Latch.mem_pending_foldl_add]
  exact and_congr_left fun _ => or_iff_right NameSet.not_mem_empty

/-- What the calls of earlier items do to the item in flight: nothing. -/
structure Isolated (config : Config) (runtime : CollectionRuntime) (capacity : Option Nat) (races : List Bool)
    (operations : List Operation) : Prop where
  awaited : ∀ m, operations.foldl after (new config runtime capacity races) = m → ∀ i moves, (∀ mv ∈ moves, mv.ends = false) →
    ∀ k, k ∈ m.awaited (m.midway i moves) ↔ k ∈ i.code.checksums ∧ k ∉ (i.reports [] moves).map (·.checksum)
  ignored : ∀ m, operations.foldl after (new config runtime capacity races) = m → ∀ i moves mv,
    (∀ c ∈ (m.midway i moves).calls m.worker.latches.length i mv, c.1 ≠ m.worker.latches.length) →
    m.awaited ((m.midway i moves).act m.worker.latches.length i mv) = m.awaited (m.midway i moves)
  same : (operations.foldl after (new config runtime capacity races)).own.muted =
    (operations.foldl after (new config runtime.own capacity races)).muted
  log : (new config runtime.own capacity races).log operations =
    ((new config runtime capacity races).log operations).filter fun c => c.2.1 == c.1
  forwarded : .stop ∉ operations → .drop ∉ operations →
    (operations.foldl after (new config runtime capacity races)).worker.outlet.held =
      ((new config runtime capacity races).log operations).map (·.2.2)

theorem Hushed.run (h : m.Hushed) (hm : m.own.muted = m'.muted) (operations : List Operation) :
    (operations.foldl Manager.after m).Hushed ∧
    (operations.foldl Manager.after m).own.muted = (operations.foldl Manager.after m').muted ∧
    m'.log operations = (m.log operations).filter fun c => c.2.1 == c.1 := by
  induction operations generalizing m m' with
  | nil => exact ⟨h, hm, rfl⟩
  | cons e rest ih =>
    obtain ⟨hsame, hmade⟩ := h.own hm e
    obtain ⟨hrun, hsame', hlog⟩ := ih (h.after e) hsame
    exact ⟨hrun, hsame', by rw [Manager.log, Manager.log, List.filter_append, hmade, hlog]⟩

theorem run_isolated (config : Config) (runtime : CollectionRuntime) (capacity : Option Nat) (races : List Bool)
    (operations : List Operation) : Isolated config runtime capacity races operations := by
  have hnew : (new config runtime capacity races).own.muted = (new config runtime.own capacity races).muted := rfl
  obtain ⟨hhushed, hsame, hlog⟩ := (hushed_new config runtime capacity races).run hnew operations
  exact {
    awaited := by
      rintro m rfl i moves hends k
      exact hhushed.mem_awaited hends k
    ignored := by
      rintro m - i moves mv hothers
      have hnone : resultsBy m.worker.latches.length ((m.midway i moves).calls m.worker.latches.length i mv) = [] :=
        List.map_eq_nil_iff.mpr (List.filter_eq_nil_iff.mpr fun c hc => by simpa using hothers c hc)
      refine Keyed.ext_mem fun k => ?_
      simp only [← NameSet.mem_entries, Manager.awaited, Worker.mem_latch_act, hnone, List.map_nil, List.not_mem_nil,
        not_false_eq_true, and_true]
    same := hsame
    log := hlog
    forwarded := (Serving.new config runtime capacity races).log }

end Manager

end Compliance
