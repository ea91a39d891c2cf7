import Compliance.Proofs.Audits
import Mathlib.Data.List.Dedup
import Mathlib.Data.List.Perm.Subperm

namespace Compliance

inductive Stack
  | policy
  | variant
  | framework
  | control
  deriving DecidableEq

abbrev Stacks := Stack → List Mrn

namespace Stacks

def empty : Stacks := fun _ => []

variable (st : Stacks) (j k : Stack) (m : Mrn)

def set (l : List Mrn) : Stacks := fun j => if j = k then l else st j

def push : Stacks := st.set k (m :: st k)

def pop : Stacks := st.set k (st k).tail

@[simp] theorem push_self : st.push k m k = m :: st k := if_pos rfl

theorem pop_push : (st.push k m).pop k = st := by
  funext j
  by_cases hj : j = k <;> simp [pop, push, set, hj]

end Stacks

/-- A resolution under way on its stacks, with all states that the stacks were in and with the stacks that each call found
and left. -/
structure Trek where
  draft : Draft
  held : Stacks := .empty
  moments : List Stacks := [.empty]
  calls : List (Stacks × Stacks) := []

def Trek.move (t : Trek) (st : Stacks) : Trek := { t with held := st, moments := t.moments ++ [st] }

abbrev Dive := StateT Trek Option

namespace Dive

variable {α β : Type}

def lift (f : Draft → β × Draft) : Dive β := fun t => some ((f t.draft).1, { t with draft := (f t.draft).2 })

def note (e : Event) : Dive Unit := lift fun d => ((), d.note e)

def inside (k : Stack) (m : Mrn) (body : Dive β) : Dive β := fun t =>
  (body (t.move (t.held.push k m))).map fun (b, t) => (b, t.move (t.held.pop k))

def call (body : Dive β) : Dive β := fun t =>
  (body t).map fun (b, t') => (b, { t' with calls := t'.calls ++ [(t.held, t'.held)] })

def collect (step : α → Dive (Option β)) : List α → Dive (List β)
  | [] => pure []
  | a :: rest => do
    let b ← step a
    let bs ← collect step rest
    return b.toList ++ bs

end Dive

open Dive

namespace Setting

variable (s : Setting)

def variantWithin (below : Query → Dive (Option Identity)) (q : Query) (m : Mrn) : Dive (Option (Mrn × Link)) :=
  let a := (s.overrides.action q.mrn m).activation
  if a = .absent then return none
  else
    match s.bundle.queries.find? m with
    | none => do
      note (.undeclaredVariant q.mrn m)
      return none
    | some v =>
      if s.asset.meets v.required then do
        let i ← below v
        return i.map fun i => (m, i, Impact.of a .unspecified none)
      else return none

def queryWithin (role : Role) : Nat → Option Mrn → Query → Dive (Option Identity)
  | 0, _, _ => failure
  | n + 1, composite, q => call do
    let t ← get
    if q.isComposite then
      if q.mrn ∈ t.held .variant then
        note (.variantCycle q.mrn)
        return none
      else
        let variants ← inside .variant q.mrn
          (collect (s.variantWithin (fun v => queryWithin role n (some q.mrn) v) q) q.variants)
        lift fun d => d.above role q variants
    else
      match q.code with
      | none =>
        note (.emptyQuery q.mrn)
        return none
      | some c => lift fun d => (some (Draft.leafIdentity role q c), (d.leaf role q c composite).2)

def queryRefWithin (n : Nat) (role : Role) (referrer : Mrn) (r : QueryRef) : Dive (Option Link) := call do
  let a := (s.overrides.effective referrer r.mrn r.action).activation
  if a = .absent then return none
  else
    match s.bundle.queries.find? r.mrn with
    | none =>
      note (.undeclaredQuery referrer r.mrn)
      return none
    | some q =>
      if s.asset.meets q.required then
        let i ← s.queryWithin role n none q
        return i.map fun i => (i, Impact.of a .unspecified r.impact)
      else return none

def riskFactorJobWithin (n : Nat) (r : RiskFactor) : Dive Bool := call do
  if s.isLive r then
    let links ← collect (s.queryRefWithin n .check r.mrn) r.checks
    let made ← lift fun d => d.structural r.mrn .riskFactor .unspecified links
    if made then
      let magnitude := (s.overrides.magnitude r.mrn).getD r.magnitude
      lift fun d => (true, { d with magnitudes := NameMap.set d.magnitudes r.mrn magnitude })
    else return false
  else return false

def riskFactorRefWithin (n : Nat) (referrer m : Mrn) : Dive (Option Link) := call do
  let link (made : Bool) : Option Link := if made then some (.mrn m, {}) else none
  match (← get).draft.riskFactors.lookup m with
  | some made => return link made
  | none =>
    match s.bundle.riskFactors.find? m with
    | none =>
      note (.undeclaredRiskFactor referrer m)
      return none
    | some r =>
      let made ← s.riskFactorJobWithin n r
      lift fun d => (link made, { d with riskFactors := (m, made) :: d.riskFactors })

def referenceWithin (n : Nat) (below : Mrn → Dive Bool) (p : Policy) : Reference → Dive (Option Link)
  | .query role r => s.queryRefWithin n role p.mrn r
  | .riskFactor m => s.riskFactorRefWithin n p.mrn m
  | .policy r => call do
    let a := (s.overrides.effective p.mrn r.mrn r.action).activation
    if a = .absent then return none
    else
      let made ← below r.mrn
      return if made then some (.mrn r.mrn, Impact.of a (r.scoring.getD .unspecified) none) else none

def policyLinksWithin (n : Nat) (below : Mrn → Dive Bool) (p : Policy) : Dive (List Link) :=
  call (collect (s.referenceWithin n below p) (p.references s.asset s.now))

def policyWithin : Nat → Mrn → Mrn → Dive Bool
  | 0, _, _ => failure
  | n + 1, referrer, m => call do
    let t ← get
    match t.draft.policies.lookup m with
    | some made => return made
    | none =>
      if m ∈ t.held .policy then
        note (.policyCycle referrer m)
        return false
      else
        match s.bundle.policies.find? m with
        | none =>
          note (.undeclaredPolicy referrer m)
          return false
        | some p =>
          let links ← inside .policy m (s.policyLinksWithin n (policyWithin n p.mrn) p)
          lift fun d => d.conclude .policy m (s.policyScoring p) links

end Setting

namespace ControlScope

variable (c : ControlScope)

def linkWithin (job : Mrn → Dive Bool) (m : Mrn) : Dive (Option Link) := call do
  if c.standing m = .absent then return none
  else
    let made ← job m
    return if made then some (.mrn m, Impact.of (c.standing m) .unspecified none) else none

def followWithin (job : Mrn → Dive Bool) : Evidence → Dive (Option Link)
  | .query role r => lift fun d => (d.linked role r, d)
  | .control m => c.linkWithin job m

def controlWithin : Nat → Mrn → Dive Bool
  | 0, _ => failure
  | n + 1, m => call do
    let t ← get
    match t.draft.controls.lookup m with
    | some made => return made
    | none =>
      if m ∈ t.held .control then
        note (.controlCycle m)
        return false
      else
        let links ← inside .control m
          (collect (c.followWithin (controlWithin n)) (c.evidenceOf m))
        lift fun d => d.conclude .control m .average links

end ControlScope

namespace Setting

variable (s : Setting)

def dependencyWithin (below : Mrn → Dive Bool) (r : FrameworkRef) : Dive (Option Link) :=
  if r.action.activation = .absent then return none
  else do
    let made ← below r.mrn
    return if made then some (.mrn r.mrn, Impact.of r.action.activation .unspecified none) else none

def frameworkWithin (c : ControlScope) : Nat → Mrn → Dive Bool
  | 0, _ => failure
  | n + 1, m => call do
    let t ← get
    match t.draft.frameworks.lookup m with
    | some made => return made
    | none =>
      if m ∈ t.held .framework then
        note (.frameworkCycle m)
        return false
      else
        match s.bundle.frameworks.find? m with
        | none => return false
        | some f =>
          let links ← inside .framework m do
            let controls ← collect (c.linkWithin (c.controlWithin n)) ((f.contentGroups s.now).flatMap (·.controls))
            let below ← collect (dependencyWithin (frameworkWithin c n)) f.dependencies
            return controls ++ below
          lift fun d => d.conclude .framework m .average links

def assignWithin (n : Nat) (asset m : Mrn) : Dive Unit := call do
  let made ← s.policyWithin n asset m
  lift fun d => ((), if made then { d with graph := d.graph.connect assetRoot (.mrn m) {} } else d)

def adoptWithin (n : Nat) (c : ControlScope) (m : Mrn) : Dive Unit := call do
  let made ← s.frameworkWithin c n m
  lift fun d => ((), if made then { d with graph := d.graph.connect assetRoot (.mrn m) .ignored } else d)

def draftPolicyWithin (n : Nat) (p : Policy) : Dive Unit := do
  let links ← inside .policy p.mrn (s.policyLinksWithin n (s.policyWithin n p.mrn) p)
  lift fun d => ((), { d with graph := d.graph.connectAll (.mrn p.mrn) links })

def addFrameworksWithin (n : Nat) (assigned : List Mrn) : Dive Unit := do
  let t ← get
  lift fun d => ((), { d with events := d.events ++ s.frameworkEvents assigned d })
  assigned.forM (s.adoptWithin n (s.scopeOf assigned t.draft))

def draftAssetWithin (n : Nat) (asset : Mrn) (policies frameworks : List Mrn) : Dive Unit := do
  policies.forM (s.assignWithin n asset)
  s.addFrameworksWithin n frameworks

end Setting

def Bundle.draftWithin (b : Bundle) (n : Nat) (r : Request) : Except ResolveError (Identity × Option Trek) :=
  let s := b.setting r
  match r.target with
  | .policy m =>
    match b.policies.find? m with
    | none => .error (.policyNotFound m)
    | some p => .ok (.mrn m, (s.draftPolicyWithin n p { draft := .start (.mrn p.mrn) p.scoring p.mrn }).map (·.2))
  | .asset asset policies frameworks =>
    .ok (assetRoot, (s.draftAssetWithin n asset (policies.filter b.isDeclared) frameworks
      { draft := .start assetRoot .unspecified asset }).map (·.2))

/-- The entities that each stack may hold. Nothing declares a control by itself: the controls of a bundle are those that its
frameworks and its evidence list. -/
def Bundle.members (b : Bundle) : Stack → List Mrn
  | .policy => b.policies.keys
  | .variant => b.queries.keys
  | .framework => b.frameworks.keys
  | .control => b.frameworks.entries.flatMap (fun f => f.groups.flatMap (·.controls)) ++
      b.evidence.flatMap fun c => c.mrn :: c.controls

def Bundle.Stacked (b : Bundle) (st : Stacks) : Prop := ∀ k, (st k).Nodup ∧ ∀ m ∈ st k, m ∈ b.members k

structure Trek.Sound (b : Bundle) (t : Trek) : Prop where
  moments : ∀ st ∈ t.moments, b.Stacked st
  calls : ∀ c ∈ t.calls, c.2 = c.1

variable {b : Bundle} {st : Stacks} {k : Stack} {m : Mrn} {α β : Type}

theorem Bundle.Stacked.push (h : b.Stacked st) (hm : m ∉ st k) (hb : m ∈ b.members k) : b.Stacked (st.push k m) := by
  intro j
  by_cases hj : j = k
  · subst hj
    rw [Stacks.push_self]
    exact ⟨List.nodup_cons.mpr ⟨hm, (h j).1⟩, List.forall_mem_cons.mpr ⟨hb, (h j).2⟩⟩
  · rw [Stacks.push, Stacks.set, if_neg hj]
    exact h j

theorem Bundle.stacked_empty : b.Stacked .empty := fun _ => ⟨List.nodup_nil, nofun⟩

theorem Bundle.Stacked.length_le (h : b.Stacked st) : (st k).length ≤ (b.members k).dedup.length :=
  ((h k).1.subperm fun _ hm => List.mem_dedup.mpr ((h k).2 _ hm)).length_le

theorem Trek.Sound.move {t : Trek} (h : t.Sound b) (hst : b.Stacked st) : (t.move st).Sound b where
  moments := by
    intro st' hst'
    rcases List.mem_append.mp hst' with hst' | hst'
    · exact h.moments st' hst'
    · rwa [List.mem_singleton.mp hst']
  calls := h.calls

namespace Dive

def Gives (b : Bundle) (t : Trek) (x : Dive β) (o : β × Draft) : Prop :=
  ∃ t', x t = some (o.1, t') ∧ t'.draft = o.2 ∧ t'.held = t.held ∧ t'.Sound b

def Returns (b : Bundle) (st : Stacks) (x : Dive β) (f : Draft → β × Draft) : Prop :=
  ∀ t : Trek, t.held = st → t.Sound b → Gives b t x (f t.draft)

namespace Returns

variable {x : Dive α} {f : Draft → α × Draft}

protected theorem pure (a : α) : Returns b st (pure a) fun d => (a, d) :=
  fun t _ h => ⟨t, rfl, rfl, rfl, h⟩

protected theorem lift (f : Draft → α × Draft) : Returns b st (Dive.lift f) f :=
  fun _ _ h => ⟨_, rfl, rfl, rfl, h.moments, h.calls⟩

protected theorem bind {g : α → Dive β} {g' : α → Draft → β × Draft} (h : Returns b st x f)
    (hg : ∀ a, Returns b st (g a) (g' a)) : Returns b st (x >>= g) fun d => g' (f d).1 (f d).2 := by
  intro t hst ht
  obtain ⟨u, hx, hd, hu, hs⟩ := h t hst ht
  obtain ⟨v, hy, he, hv, hs'⟩ := hg (f t.draft).1 u (hu.trans hst) hs
  rw [hd] at hy he
  exact ⟨v, (congrArg (fun o : Option (α × Trek) => o.bind fun p => g p.1 p.2) hx).trans hy, he, hv.trans hu, hs'⟩

theorem look {g : Trek → Dive α} (h : ∀ t : Trek, t.held = st → t.Sound b → Gives b t (g t) (f t.draft)) :
    Returns b st (do let t ← get; g t) f := h

theorem map (g : α → β) (h : Returns b st x f) :
    Returns b st (do let a ← x; return g a) fun d => (g (f d).1, (f d).2) :=
  h.bind fun a => .pure (g a)

theorem note (e : Event) (a : α) : Returns b st (do Dive.note e; return a) fun d => (a, d.note e) :=
  (Returns.lift fun d => ((), d.note e)).bind fun _ => .pure a

theorem collect {step : β → Dive (Option α)} {step' : β → Draft → Option α × Draft} {l : List β}
    (h : ∀ a ∈ l, Returns b st (step a) (step' a)) : Returns b st (Dive.collect step l) (gather step' l) := by
  induction l with
  | nil => exact .pure []
  | cons a rest ih =>
    exact (h a List.mem_cons_self).bind fun o =>
      (ih fun x hx => h x (List.mem_cons_of_mem _ hx)).bind fun os => .pure (o.toList ++ os)

theorem call (h : Returns b st x f) : Returns b st (Dive.call x) f := by
  intro t hst ht
  obtain ⟨u, hx, hd, hu, hs⟩ := h t hst ht
  refine ⟨{ u with calls := u.calls ++ [(t.held, u.held)] }, by rw [Dive.call, hx]; rfl, hd, hu, hs.moments, ?_⟩
  intro c hc
  rcases List.mem_append.mp hc with hc | hc
  · exact hs.calls c hc
  · rw [List.mem_singleton.mp hc]
    exact hu

theorem inside (hst : b.Stacked st) (hm : m ∉ st k) (hb : m ∈ b.members k) (h : Returns b (st.push k m) x f) :
    Returns b st (Dive.inside k m x) f := by
  rintro t rfl ht
  obtain ⟨u, hx, hd, hu, hs⟩ := h (t.move (t.held.push k m)) rfl (ht.move (hst.push hm hb))
  have hpop : u.held.pop k = t.held := by
    rw [hu]
    exact t.held.pop_push k m
  exact ⟨u.move (u.held.pop k), by rw [Dive.inside, hx]; rfl, hd, hpop, hs.move (hpop ▸ hst)⟩

theorem forM {step : β → Dive Unit} {step' : Draft → β → Draft} {l : List β}
    (h : ∀ a ∈ l, Returns b st (step a) fun d => ((), step' d a)) :
    Returns b st (l.forM step) fun d => ((), l.foldl step' d) := by
  induction l with
  | nil => exact .pure ()
  | cons a rest ih =>
    exact (h a List.mem_cons_self).bind fun _ => ih fun x hx => h x (List.mem_cons_of_mem _ hx)

end Returns

end Dive

end Compliance
