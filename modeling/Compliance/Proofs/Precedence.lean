import Compliance.Proofs.Depths
import Compliance.Proofs.Reordering

namespace Compliance

namespace Layer

def Before (l l' : Layer) : Prop := l.depth < l'.depth ∨ l.depth = l'.depth ∧ l.owner < l'.owner

instance (l l' : Layer) : Decidable (l.Before l') := inferInstanceAs (Decidable (_ ∨ _))

variable {l l' l'' : Layer}

theorem Before.depth_le (h : l.Before l') : l.depth ≤ l'.depth := by
  rcases h with h | ⟨h, -⟩
  · exact Nat.le_of_lt h
  · exact Nat.le_of_eq h

theorem Before.trans (h : l.Before l') (h' : l'.Before l'') : l.Before l'' := by
  rcases h with h | ⟨h, ho⟩
  · exact .inl (Nat.lt_of_lt_of_le h h'.depth_le)
  · rcases h' with h' | ⟨h', ho'⟩
    · exact .inl (h ▸ h')
    · exact .inr ⟨h.trans h', String.lt_trans ho ho'⟩

theorem Before.asymm (h : l.Before l') : ¬l'.Before l := by
  intro h'
  rcases h.trans h' with h | ⟨-, h⟩
  · exact Nat.lt_irrefl _ h
  · exact String.lt_irrefl _ h

theorem before_or_before (h : l.owner ≠ l'.owner) : l.Before l' ∨ l'.Before l := by
  rcases Nat.lt_trichotomy l.depth l'.depth with hlt | heq | hgt
  · exact .inl (.inl hlt)
  · by_cases hlt : l.owner < l'.owner
    · exact .inl (.inr ⟨heq, hlt⟩)
    · have hgt : l'.owner < l.owner := by
        by_contra hge
        exact h (String.le_antisymm (String.not_lt.mp hge) (String.not_lt.mp hlt))
      exact .inr (.inr ⟨heq.symm, hgt⟩)
  · exact .inr (.inl hgt)

def place (layers : List Layer) (l : Layer) : List Layer :=
  layers.takeWhile (·.Before l) ++ l :: layers.dropWhile (·.Before l)

variable {layers : List Layer}

theorem place_perm : (place layers l).Perm (l :: layers) := by
  have hsplit : layers.takeWhile (·.Before l) ++ layers.dropWhile (·.Before l) = layers := List.takeWhile_append_dropWhile
  calc (place layers l).Perm (l :: (layers.takeWhile (·.Before l) ++ layers.dropWhile (·.Before l))) := List.perm_middle
    _ = l :: layers := by rw [hsplit]

theorem place_cons_of_before {first : Layer} (h : first.Before l) : place (first :: layers) l = first :: place layers l := by
  simp [place, h]

theorem place_cons_of_not_before {first : Layer} (h : ¬first.Before l) :
    place (first :: layers) l = l :: first :: layers := by
  simp [place, h]

theorem place_pairwise (hl : layers.Pairwise Before) (h : ∀ l' ∈ layers, l'.owner ≠ l.owner) :
    (place layers l).Pairwise Before := by
  induction layers with
  | nil => simp [place]
  | cons first rest ih =>
    obtain ⟨hfirst, hrest⟩ := List.pairwise_cons.mp hl
    by_cases hbefore : first.Before l
    · rw [place_cons_of_before hbefore]
      refine List.pairwise_cons.mpr ⟨fun l' hl' => ?_, ih hrest fun l' hl' => h l' (List.mem_cons_of_mem _ hl')⟩
      rcases List.mem_cons.mp (place_perm.mem_iff.mp hl') with rfl | hl'
      · exact hbefore
      · exact hfirst l' hl'
    · -- owners differ, so what is not before it is after it
      have hafter : l.Before first := (before_or_before (h first List.mem_cons_self)).resolve_left hbefore
      rw [place_cons_of_not_before hbefore]
      refine List.pairwise_cons.mpr ⟨fun l' hl' => ?_, hl⟩
      rcases List.mem_cons.mp hl' with rfl | hl'
      · exact hafter
      · exact hafter.trans (hfirst l' hl')

theorem foldl_place_perm (later layers : List Layer) : (later.foldl place layers).Perm (later ++ layers) := by
  induction later generalizing layers with
  | nil => exact .refl _
  | cons l rest ih => exact (ih _).trans ((place_perm.append_left rest).trans List.perm_middle)

theorem foldl_place_pairwise {later : List Layer} (hl : layers.Pairwise Before)
    (h : ((later ++ layers).map (·.owner)).Nodup) : (later.foldl place layers).Pairwise Before := by
  induction later generalizing layers with
  | nil => exact hl
  | cons l rest ih =>
    have hnew : ∀ l' ∈ layers, l'.owner ≠ l.owner := by
      intro l' hl' heq
      have hmem : l'.owner ∈ (rest ++ layers).map (·.owner) := List.mem_map_of_mem (List.mem_append_right rest hl')
      rw [heq] at hmem
      exact (List.nodup_cons.mp h).1 hmem
    refine ih (place_pairwise hl hnew) ?_
    have hperm : (rest ++ place layers l).Perm (l :: (rest ++ layers)) :=
      (place_perm.append_left rest).trans List.perm_middle
    exact (hperm.map (·.owner)).nodup_iff.mpr h

theorem foldl_place_eq {arriving : List Layer} (hl : layers.Pairwise Before) (h : (layers.map (·.owner)).Nodup)
    (hp : arriving.Perm layers) : arriving.foldl place [] = layers := by
  have hperm : (arriving.foldl place []).Perm layers := by
    have hall := foldl_place_perm arriving []
    rw [List.append_nil] at hall
    exact hall.trans hp
  have hpairwise : (arriving.foldl place []).Pairwise Before := by
    refine foldl_place_pairwise .nil ?_
    rw [List.append_nil]
    exact (hp.map (·.owner)).nodup_iff.mpr h
  exact List.Perm.eq_of_pairwise (fun l l' _ _ hb ha => absurd ha hb.asymm) hpairwise hl hperm

end Layer

namespace Action

theorem eq_of_restrictiveness {a a' : Action} (h : a.restrictiveness = a'.restrictiveness) : a = a' := by
  cases a <;> cases a' <;> first | rfl | cases h

theorem isSpecified_iff {a : Action} : a.isSpecified = true ↔ a ≠ .unspecified := by
  cases a <;> simp [isSpecified]

theorem foldl_mostRestrictive {α : Type} (f : α → Action) (a : Action) (later : List α) :
    (later.foldl (fun a x => a.mostRestrictive (f x)) a = a ∨
      ∃ x ∈ later, later.foldl (fun a x => a.mostRestrictive (f x)) a = f x) ∧
    a.restrictiveness ≤ (later.foldl (fun a x => a.mostRestrictive (f x)) a).restrictiveness ∧
    ∀ x ∈ later, (f x).restrictiveness ≤ (later.foldl (fun a x => a.mostRestrictive (f x)) a).restrictiveness := by
  induction later generalizing a with
  | nil => exact ⟨.inl rfl, Nat.le_refl _, by simp⟩
  | cons x rest ih =>
    obtain ⟨hfrom, hfirst, hrest⟩ := ih (a.mostRestrictive (f x))
    have hmost : (a.mostRestrictive (f x) = a ∨ a.mostRestrictive (f x) = f x) ∧
        a.restrictiveness ≤ (a.mostRestrictive (f x)).restrictiveness ∧
        (f x).restrictiveness ≤ (a.mostRestrictive (f x)).restrictiveness := by
      unfold mostRestrictive
      split
      · rename_i hlt
        exact ⟨.inr rfl, Nat.le_of_lt hlt, Nat.le_refl _⟩
      · rename_i hge
        exact ⟨.inl rfl, Nat.le_refl _, Nat.le_of_not_lt hge⟩
    obtain ⟨hone, ha, hx⟩ := hmost
    refine ⟨?_, Nat.le_trans ha hfirst, fun y hy => ?_⟩
    · rcases hfrom with hfrom | ⟨y, hy, hfrom⟩
      · rcases hone with hone | hone
        · exact .inl (hfrom.trans hone)
        · exact .inr ⟨x, List.mem_cons_self, hfrom.trans hone⟩
      · exact .inr ⟨y, List.mem_cons_of_mem _ hy, hfrom⟩
    · rcases List.mem_cons.mp hy with rfl | hy
      · exact Nat.le_trans hx hfirst
      · exact hrest y hy

end Action

namespace Overrides

variable {b : Bundle} {asset : PredicateSet} {now : Timestamp} {roots : List Mrn} {pool level : List Policy} {depth : Nat}
  {o : Overrides} {l : Layer} {referrer m : Mrn} {a a' : Action}

theorem Stage.ordered (h : Stage b asset now roots pool level depth o) :
    (o.addLevel asset now level depth).layers.Pairwise Layer.Before := by
  have hlevel : ∀ {pool level : List Policy} {depth : Nat} {o : Overrides}, Stage b asset now roots pool level depth o →
      o.layers.Pairwise Layer.Before → (o.addLevel asset now level depth).layers.Pairwise Layer.Before := by
    intro pool level depth o h ho
    have hpart := h.parted
    rw [addLevel, List.pairwise_append]
    refine ⟨ho, List.pairwise_map.mpr ((b.policies.ordered.sublist hpart.here).imp fun hlt => .inr ⟨rfl, hlt⟩), ?_⟩
    intro l hl l' hl'
    obtain ⟨p, -, rfl⟩ := List.mem_map.mp hl'
    exact .inl (hpart.above l hl).1
  induction h with
  | start => exact hlevel .start .nil
  | next h hr ih => exact hlevel (.next h hr) ih

theorem collect_ordered (b : Bundle) (asset : PredicateSet) (now : Timestamp) (roots : List Mrn) :
    (collect b asset now roots).layers.Pairwise Layer.Before ∧
      ((collect b asset now roots).layers.map (·.owner)).Nodup := by
  obtain ⟨pool, level, depth, o, h, hr⟩ := Stage.exists_last (.start : Stage b asset now roots _ _ _ _)
  rw [h.collect_eq, grow_last hr]
  exact ⟨h.ordered, h.parted.once_addLevel⟩

def First {α : Type} (o : Overrides) (f : Layer → Option α) (v : Option α) : Prop :=
  (∃ l ∈ o.layers, f l = v ∧ v ≠ none ∧ ∀ l' ∈ o.layers, f l' ≠ none → l' = l ∨ l.Before l') ∨
    v = none ∧ ∀ l ∈ o.layers, f l = none

theorem findSome?_eq_iff {α : Type} {f : Layer → Option α} {v : Option α} (ho : o.layers.Pairwise Layer.Before) :
    o.layers.findSome? f = v ↔ o.First f v := by
  constructor
  · rintro rfl
    cases hv : o.layers.findSome? f with
    | none => exact .inr ⟨rfl, List.findSome?_eq_none_iff.mp hv⟩
    | some x =>
      obtain ⟨before, l, after, hl, hx, hbefore⟩ := List.findSome?_eq_some_iff.mp hv
      refine .inl ⟨l, by simp [hl], hx, by simp, fun l' hl' hsome => ?_⟩
      rw [hl] at hl' ho
      rcases List.mem_append.mp hl' with hl' | hl'
      · exact absurd (hbefore l' hl') hsome
      · rcases List.mem_cons.mp hl' with rfl | hl'
        · exact .inl rfl
        · exact .inr ((List.pairwise_cons.mp (List.pairwise_append.mp ho).2.1).1 l' hl')
  · rintro (⟨l, hl, hx, hv, hleast⟩ | ⟨rfl, hnone⟩)
    · obtain ⟨x, rfl⟩ := Option.ne_none_iff_exists'.mp hv
      obtain ⟨before, after, hsplit⟩ := List.append_of_mem hl
      refine List.findSome?_eq_some_iff.mpr ⟨before, l, after, hsplit, hx, fun l' hl' => ?_⟩
      by_contra hsome
      rw [hsplit, List.pairwise_append] at ho
      have hbefore : l'.Before l := ho.2.2 l' hl' l List.mem_cons_self
      rcases hleast l' (by simp [hsplit, hl']) hsome with rfl | hafter
      · exact hbefore.asymm hbefore
      · exact hbefore.asymm hafter
    · exact List.findSome?_eq_none_iff.mpr hnone

/-- A referrer that has a layer sees that and those above it, any other sees them all. -/
def Visible (o : Overrides) (referrer : Mrn) (l : Layer) : Prop :=
  l ∈ o.layers ∧ ∀ own ∈ o.layers, own.owner = referrer → l = own ∨ l.depth < own.depth

def Decides (o : Overrides) (referrer m : Mrn) (a : Action) : Prop :=
  (∃ l, o.Visible referrer l ∧ (l.change m).action = a ∧ a ≠ .unspecified ∧
    ∀ l', o.Visible referrer l' → (l'.change m).action ≠ .unspecified →
      l.depth ≤ l'.depth ∧ (l'.depth = l.depth → (l'.change m).action.restrictiveness ≤ a.restrictiveness)) ∨
    a = .unspecified ∧ ∀ l, o.Visible referrer l → (l.change m).action = .unspecified

theorem Decides.unique (h : o.Decides referrer m a) (h' : o.Decides referrer m a') : a = a' := by
  rcases h with ⟨l, hl, rfl, hspec, hleast⟩ | ⟨rfl, hnone⟩
  · rcases h' with ⟨l', hl', rfl, hspec', hleast'⟩ | ⟨rfl, hnone'⟩
    · obtain ⟨hle, hmost⟩ := hleast l' hl' hspec'
      obtain ⟨hle', hmost'⟩ := hleast' l hl hspec
      have hdepth : l.depth = l'.depth := Nat.le_antisymm hle hle'
      exact Action.eq_of_restrictiveness (Nat.le_antisymm (hmost' hdepth) (hmost hdepth.symm))
    · exact absurd (hnone' l hl) hspec
  · rcases h' with ⟨l', hl', rfl, hspec', -⟩ | ⟨rfl, -⟩
    · exact absurd (hnone l' hl') hspec'
    · rfl

theorem sees_iff (ho : (o.layers.map (·.owner)).Nodup) (hl : l ∈ o.layers) :
    o.sees referrer l = true ↔ o.Visible referrer l := by
  have hsame : ∀ {l l' : Layer}, l ∈ o.layers → l' ∈ o.layers → l.owner = l'.owner → l = l' := fun hl hl' he =>
    List.inj_on_of_nodup_map ho hl hl' he
  cases hfind : o.layers.find? (·.owner == referrer) with
  | none =>
    have hnone : ∀ own ∈ o.layers, own.owner ≠ referrer := by simpa using List.find?_eq_none.mp hfind
    simp only [sees, depth?, hfind, Option.map_none, true_iff]
    exact ⟨hl, fun own hown he => absurd he (hnone own hown)⟩
  | some own =>
    have hown : own ∈ o.layers := List.mem_of_find?_eq_some hfind
    have howner : own.owner = referrer := by simpa using List.find?_some hfind
    simp only [sees, depth?, hfind, Option.map_some, Bool.or_eq_true, decide_eq_true_eq, beq_iff_eq]
    constructor
    · refine fun h => ⟨hl, fun own' hown' he => ?_⟩
      -- a policy has one layer, so the one that is found is the one that is meant
      obtain rfl := hsame hown' hown (he.trans howner.symm)
      rcases h with h | h
      · exact .inr h
      · exact .inl (hsame hl hown' (h.trans he.symm))
    · rintro ⟨-, h⟩
      rcases h own hown howner with rfl | h
      · exact .inr howner
      · exact .inl h

theorem mem_said (ho : (o.layers.map (·.owner)).Nodup) {e : Nat × Action} : e ∈ o.said referrer m ↔
    ∃ l, o.Visible referrer l ∧ (l.change m).action ≠ .unspecified ∧ (l.depth, (l.change m).action) = e := by
  simp only [said, List.mem_filterMap, List.mem_filter, Layer.says?, Option.ite_none_right_eq_some, Option.some.injEq,
    Action.isSpecified_iff]
  constructor
  · rintro ⟨l, ⟨hl, hsees⟩, hspec, he⟩
    exact ⟨l, (sees_iff ho hl).mp hsees, hspec, he⟩
  · rintro ⟨l, hvisible, hspec, he⟩
    exact ⟨l, ⟨hvisible.1, (sees_iff ho hvisible.1).mpr hvisible⟩, hspec, he⟩

theorem said_ordered (ho : o.layers.Pairwise Layer.Before) : (o.said referrer m).Pairwise (·.1 ≤ ·.1) := by
  refine List.Pairwise.filterMap _ (fun l l' hb e he e' he' => ?_) (ho.sublist List.filter_sublist)
  simp only [Layer.says?, Option.ite_none_right_eq_some, Option.some.injEq] at he he'
  obtain ⟨-, rfl⟩ := he
  obtain ⟨-, rfl⟩ := he'
  exact hb.depth_le

theorem verdict_spec {said : List (Nat × Action)} (hs : said.Pairwise (·.1 ≤ ·.1)) :
    said = [] ∧ verdict said = .unspecified ∨ ∃ d, (d, verdict said) ∈ said ∧
      ∀ e ∈ said, d ≤ e.1 ∧ (e.1 = d → e.2.restrictiveness ≤ (verdict said).restrictiveness) := by
  cases said with
  | nil => exact .inl ⟨rfl, rfl⟩
  | cons first rest =>
    obtain ⟨d, a⟩ := first
    obtain ⟨hfrom, hfirst, hrest⟩ := Action.foldl_mostRestrictive Prod.snd a (rest.filter (·.1 == d))
    refine .inr ⟨d, ?_, fun e he => ?_⟩
    · rcases hfrom with hfrom | ⟨e, he, hfrom⟩
      · rw [verdict, hfrom]
        exact List.mem_cons_self
      · obtain ⟨hmem, hdepth⟩ := List.mem_filter.mp he
        rw [verdict, hfrom]
        exact List.mem_cons_of_mem _ (by rwa [← beq_iff_eq.mp hdepth])
    · rcases List.mem_cons.mp he with rfl | he
      · exact ⟨Nat.le_refl d, fun _ => hfirst⟩
      · refine ⟨(List.pairwise_cons.mp hs).1 e he, fun hd => ?_⟩
        exact hrest e (List.mem_filter.mpr ⟨he, beq_iff_eq.mpr hd⟩)

theorem action_eq_iff (ho : o.layers.Pairwise Layer.Before) (hn : (o.layers.map (·.owner)).Nodup) :
    o.action referrer m = a ↔ o.Decides referrer m a := by
  have hdecides : o.Decides referrer m (o.action referrer m) := by
    have hsaid : (o.said referrer m).Pairwise (·.1 ≤ ·.1) := said_ordered ho
    rcases verdict_spec hsaid with ⟨hnone, hverdict⟩ | ⟨d, hd, hleast⟩
    · refine .inr ⟨hverdict, fun l hl => ?_⟩
      by_contra hspec
      have hmem := (mem_said hn).mpr ⟨l, hl, hspec, rfl⟩
      rw [hnone] at hmem
      cases hmem
    · obtain ⟨l, hl, hspec, he⟩ := (mem_said hn).mp hd
      obtain ⟨rfl, haction⟩ := Prod.mk.inj he
      refine .inl ⟨l, hl, haction, fun h => hspec (haction.trans h), fun l' hl' hspec' => ?_⟩
      exact hleast _ ((mem_said hn).mpr ⟨l', hl', hspec', rfl⟩)
  exact ⟨fun h => h ▸ hdecides, fun h => hdecides.unique h⟩

structure Declared (b : Bundle) (asset : PredicateSet) (now : Timestamp) (roots : List Mrn) (o : Overrides) : Prop where
  reached : ∀ l, l ∈ o.layers ↔ ∃ n p, (⟨b, asset, now, o⟩ : Setting).AtDepth roots n p ∧ p.layer asset now n = l
  ordered : o.layers.Pairwise Layer.Before
  once : (o.layers.map (·.owner)).Nodup
  action : ∀ referrer m a, o.action referrer m = a ↔ o.Decides referrer m a
  magnitude : ∀ m v, o.magnitude m = v ↔ o.First (fun l => (l.change m).magnitude) v
  scoring : ∀ m v, o.scoring m = v ↔ o.First (fun l => (l.change m).scoring) v
  placed : ∀ (keep : Layer → Bool) (arriving : List Layer), arriving.Perm (o.layers.filter keep) →
    arriving.foldl Layer.place [] = o.layers.filter keep
  roots : ∀ roots', (∀ m, m ∈ roots' ↔ m ∈ roots) → ∀ referrer m,
    (collect b asset now roots').action referrer m = o.action referrer m ∧
    (collect b asset now roots').magnitude m = o.magnitude m ∧ (collect b asset now roots').scoring m = o.scoring m

theorem collect_declared (b : Bundle) (asset : PredicateSet) (now : Timestamp) (roots : List Mrn) :
    Declared b asset now roots (collect b asset now roots) := by
  obtain ⟨hordered, honce⟩ := collect_ordered b asset now roots
  exact {
    reached := Setting.mem_layers_iff (s := ⟨b, asset, now, collect b asset now roots⟩) rfl
    ordered := hordered
    once := honce
    action := fun referrer m a => action_eq_iff hordered honce
    magnitude := fun m v => findSome?_eq_iff hordered
    scoring := fun m v => findSome?_eq_iff hordered
    placed := fun keep arriving hp => Layer.foldl_place_eq (hordered.sublist List.filter_sublist)
      (honce.sublist (List.filter_sublist.map _)) hp
    roots := fun roots' h referrer m => by
      rw [Bundle.collect_congr h]
      exact ⟨rfl, rfl, rfl⟩ }

end Overrides

end Compliance
