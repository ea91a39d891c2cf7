import Compliance.Proofs.Resemblance
import Compliance.Proofs.Rooted

/-!
What the checksum's text tells of a graph. Its lines are joined from ids that may hold the signs that
join them; as long as no identity continues another one across such a sign, each line tells its
node or edge, and the text tells them all.
-/

namespace Compliance

theorem append_cons_cases {α : Type} {c : α} {a b a' b' : List α} (h : a ++ c :: b = a' ++ c :: b') :
    (a = a' ∧ b = b') ∨ (∃ t, a' = a ++ c :: t ∧ b = t ++ c :: b') ∨ ∃ t, a = a' ++ c :: t ∧ b' = t ++ c :: b := by
  rcases List.append_eq_append_iff.mp h with ⟨t, ha, ht⟩ | ⟨t, ha, ht⟩
  · cases t with
    | nil => exact .inl ⟨by simpa using ha.symm, (List.cons.inj ht).2⟩
    | cons x t =>
      obtain ⟨rfl, hb⟩ := List.cons.inj ht
      exact .inr (.inl ⟨t, ha, hb⟩)
  · cases t with
    | nil => exact .inl ⟨by simpa using ha, (List.cons.inj ht).2.symm⟩
    | cons x t =>
      obtain ⟨rfl, hb⟩ := List.cons.inj ht
      exact .inr (.inr ⟨t, ha, hb⟩)

theorem append_cons_left {α : Type} {c : α} {a b a' b' : List α} (ha : c ∉ a) (ha' : c ∉ a')
    (h : a ++ c :: b = a' ++ c :: b') : a = a' ∧ b = b' := by
  rcases append_cons_cases h with h | ⟨t, rfl, -⟩ | ⟨t, rfl, -⟩
  · exact h
  · simp at ha'
  · simp at ha

theorem append_cons_right {α : Type} {c : α} {a b a' b' : List α} (hb : c ∉ b) (hb' : c ∉ b')
    (h : a ++ c :: b = a' ++ c :: b') : a = a' ∧ b = b' := by
  rcases append_cons_cases h with h | ⟨t, -, rfl⟩ | ⟨t, -, rfl⟩
  · exact h
  · simp at hb
  · simp at hb'

theorem append_cons_first {α : Type} {c : α} {a b a' b' : List α} (hn : ¬a ++ [c] <+: a') (hn' : ¬a' ++ [c] <+: a)
    (h : a ++ c :: b = a' ++ c :: b') : a = a' ∧ b = b' := by
  rcases append_cons_cases h with h | ⟨t, rfl, -⟩ | ⟨t, rfl, -⟩
  · exact h
  · exact absurd ⟨t, by simp⟩ hn
  · exact absurd ⟨t, by simp⟩ hn'

def signs : List Char := [':', '>', '\n']

theorem colon_mem_signs : ':' ∈ signs := by decide

theorem newline_mem_signs : '\n' ∈ signs := by decide

theorem forall_signs {P : Char → Prop} (hcolon : P ':') (harrow : P '>') (hnewline : P '\n') : ∀ c ∈ signs, P c := by
  simp [signs, hcolon, harrow, hnewline]

theorem sign_not_mem_jobType (t : JobType) : ∀ c ∈ signs, c ∉ (word t).toList := by
  cases t <;> exact forall_signs (by decide) (by decide) (by decide)

theorem sign_not_mem_scoring (s : ScoringSystem) : ∀ c ∈ signs, c ∉ (word s).toList := by
  cases s <;> exact forall_signs (by decide) (by decide) (by decide)

theorem jobType_eq_of_word {t t' : JobType} (h : word t = word t') : t = t' := by
  cases t <;> cases t' <;> first | rfl | (revert h; decide)

theorem scoring_eq_of_word {s s' : ScoringSystem} (h : word s = word s') : s = s' := by
  cases s <;> cases s' <;> first | rfl | (revert h; decide)

namespace Identity

theorem text_inj {i j : Identity} (h : i.text = j.text) : i = j := by
  have hl := congrArg String.toList h
  cases i with
  | code id =>
    cases j with
    | code id' =>
      simp only [text, String.toList_append, List.append_cancel_left_eq] at hl
      rw [String.toList_inj.mp hl]
    | mrn m =>
      simp only [text, String.toList_append] at hl
      exact absurd (List.cons.inj hl).1 (by decide)
  | mrn m =>
    cases j with
    | code id =>
      simp only [text, String.toList_append] at hl
      exact absurd (List.cons.inj hl).1 (by decide)
    | mrn m' =>
      simp only [text, String.toList_append, List.append_cancel_left_eq] at hl
      rw [String.toList_inj.mp hl]

theorem text_eq (i : Identity) :
    ∃ kind : List Char, (∀ c ∈ signs, c ∉ kind) ∧ i.text.toList = kind ++ ':' :: i.key.toList := by
  cases i with
  | code id =>
    have hkind : ∀ c ∈ signs, c ∉ "code".toList := forall_signs (by decide) (by decide) (by decide)
    exact ⟨_, hkind, by simp [text, key, String.toList_append]⟩
  | mrn m =>
    have hkind : ∀ c ∈ signs, c ∉ "mrn".toList := forall_signs (by decide) (by decide) (by decide)
    exact ⟨_, hkind, by simp [text, key, String.toList_append]⟩

theorem not_mem_text {i : Identity} {c : Char} (hc : c ∈ signs) (hne : c ≠ ':') (hk : c ∉ i.key.toList) :
    c ∉ i.text.toList := by
  obtain ⟨kind, hkind, he⟩ := i.text_eq
  rw [he]
  simp [hkind c hc, hne, hk]

theorem not_text_prefix {i j : Identity} (hj : ':' ∉ j.key.toList) : ¬i.text.toList ++ [':'] <+: j.text.toList := by
  rintro ⟨rest, hrest⟩
  obtain ⟨kind, hkind, hi⟩ := i.text_eq
  obtain ⟨kind', hkind', hj'⟩ := j.text_eq
  have hcolon : kind ++ ':' :: (i.key.toList ++ ':' :: rest) = kind' ++ ':' :: j.key.toList := by
    simpa [hi, hj'] using hrest
  obtain ⟨-, hkey⟩ := append_cons_left (hkind _ colon_mem_signs) (hkind' _ colon_mem_signs) hcolon
  rw [← hkey] at hj
  simp at hj

end Identity

namespace Impact

theorem weightText_toList (w : Impact) :
    w.weightText.toList = (w.weight.map fun n => Nat.toDigits 10 n.toNat).getD [] := by
  unfold weightText
  cases w.weight with
  | none => rfl
  | some n => exact Nat.toList_repr

theorem sign_not_mem_weightText (w : Impact) : ∀ c ∈ signs, c ∉ w.weightText.toList := by
  rw [weightText_toList]
  cases w.weight with
  | none => simp
  | some n =>
    intro c hc h
    have hd : c.isDigit = true := Nat.isDigit_of_mem_toDigits (by decide) (by decide) h
    have hsign : ∀ c ∈ signs, ¬c.isDigit = true := forall_signs (by decide) (by decide) (by decide)
    exact hsign c hc hd

theorem weight_eq_of_weightText {w w' : Impact} (h : w.weightText.toList = w'.weightText.toList) :
    w.weight = w'.weight := by
  rw [weightText_toList, weightText_toList] at h
  have hne : ∀ n : Nat, Nat.toDigits 10 n ≠ [] := fun n => List.ne_nil_of_length_pos Nat.length_toDigits_pos
  cases hw : w.weight with
  | none =>
    cases hw' : w'.weight with
    | none => rfl
    | some n' =>
      rw [hw, hw'] at h
      exact absurd h.symm (hne _)
  | some n =>
    cases hw' : w'.weight with
    | none =>
      rw [hw, hw'] at h
      exact absurd h (hne _)
    | some n' =>
      rw [hw, hw'] at h
      have hd : Nat.ofDigitChars 10 (Nat.toDigits 10 n.toNat) 0 = Nat.ofDigitChars 10 (Nat.toDigits 10 n'.toNat) 0 :=
        congrArg (fun l => Nat.ofDigitChars 10 l 0) h
      rw [Nat.ofDigitChars_toDigits (by decide) (by decide), Nat.ofDigitChars_toDigits (by decide) (by decide)] at hd
      rw [UInt32.toNat_inj.mp hd]

end Impact

theorem Job.nodeLine_toList (i : Identity) (t : JobType) (code : Option CodeId) : (nodeLine i t code).toList =
    "node:".toList ++ ((word t).toList ++ ':' :: (i.text.toList ++ (code.map fun c => ':' :: c.toList).getD [])) := by
  cases code <;> simp [nodeLine, String.toList_append]

theorem Job.edgeLine_toList (p c : Identity) (w : Impact) : (edgeLine p c w).toList =
    "edge:".toList ++ (p.text.toList ++ '>' ::
      (c.text.toList ++ ':' :: ((word w.scoring).toList ++ ':' :: w.weightText.toList))) := by
  simp [edgeLine, String.toList_append]

namespace Fact

deriving instance DecidableEq for Fact

/-- The first identity of the one goes on, in the other, after the sign that follows it in a line. -/
def RunsInto : Fact → Fact → Prop
  | node i t (some _), node j u _ => t = u ∧ i.text.toList ++ [':'] <+: j.text.toList
  | edge p _ _, edge q _ _ => p.text.toList ++ ['>'] <+: q.text.toList
  | _, _ => False

instance : DecidableRel RunsInto
  | node i t (some _), node j u _ => inferInstanceAs (Decidable (t = u ∧ i.text.toList ++ [':'] <+: j.text.toList))
  | edge p _ _, edge q _ _ => inferInstanceAs (Decidable (p.text.toList ++ ['>'] <+: q.text.toList))
  | node _ _ none, node _ _ _ => .isFalse id
  | node _ _ (some _), edge _ _ _ => .isFalse id
  | node _ _ none, edge _ _ _ => .isFalse id
  | edge _ _ _, node _ _ _ => .isFalse id

structure Legible (facts : List Fact) : Prop where
  oneLine : ∀ f ∈ facts, '\n' ∉ f.line.toList
  apart : ∀ f ∈ facts, ∀ f' ∈ facts, ¬f.RunsInto f'

instance (facts : List Fact) : Decidable (Legible facts) :=
  decidable_of_iff ((∀ f ∈ facts, '\n' ∉ f.line.toList) ∧ ∀ f ∈ facts, ∀ f' ∈ facts, ¬f.RunsInto f')
    ⟨fun h => ⟨h.1, h.2⟩, fun h => ⟨h.oneLine, h.apart⟩⟩

variable {facts : List Fact} {f f' : Fact}

def ids : Fact → List String
  | node i _ code => i.key :: code.toList
  | edge i c _ => [i.key, c.key]

theorem newline_not_mem_line (h : ∀ id ∈ f.ids, '\n' ∉ id.toList) : '\n' ∉ f.line.toList := by
  cases f with
  | node i t code =>
    have hi := Identity.not_mem_text newline_mem_signs (by decide) (h i.key List.mem_cons_self)
    have ht := sign_not_mem_jobType t _ newline_mem_signs
    have hcode : ∀ id ∈ code, '\n' ∉ id.toList :=
      fun id hid => h id (List.mem_cons_of_mem _ (Option.mem_toList.mpr hid))
    rw [line, Job.nodeLine_toList]
    cases code with
    | none => simp [hi, ht]
    | some id => simp [hi, ht, hcode id rfl]
  | edge p c w =>
    have hp := Identity.not_mem_text newline_mem_signs (by decide) (h p.key List.mem_cons_self)
    have hc := Identity.not_mem_text newline_mem_signs (by decide) (h c.key (List.mem_cons_of_mem _ List.mem_cons_self))
    rw [line, Job.edgeLine_toList]
    simp [hp, hc, sign_not_mem_scoring w.scoring _ newline_mem_signs, w.sign_not_mem_weightText _ newline_mem_signs]

theorem Legible.of_plain (h : ∀ f ∈ facts, ∀ id ∈ f.ids, ∀ c ∈ signs, c ∉ id.toList) : Legible facts := by
  refine ⟨fun f hf => newline_not_mem_line fun id hid => h f hf id hid _ newline_mem_signs, fun f hf f' hf' hr => ?_⟩
  have hplain := h f' hf'
  match f, f', hr with
  | node i t (some _), node j u _, hr =>
    exact Identity.not_text_prefix (hplain j.key List.mem_cons_self _ colon_mem_signs) hr.2
  | edge p _ _, edge q _ _, hr =>
    refine Identity.not_mem_text (by decide) (by decide) (hplain q.key List.mem_cons_self '>' (by decide)) ?_
    exact List.IsPrefix.subset hr (by simp)

theorem Legible.node_inj (h : Legible facts) {i j : Identity} {t u : JobType} {code code' : Option CodeId}
    (hf : .node i t code ∈ facts) (hf' : .node j u code' ∈ facts)
    (he : (Job.nodeLine i t code).toList = (Job.nodeLine j u code').toList) : Fact.node i t code = .node j u code' := by
  rw [Job.nodeLine_toList, Job.nodeLine_toList, List.append_cancel_left_eq] at he
  obtain ⟨ht, hrest⟩ := append_cons_left (sign_not_mem_jobType t _ colon_mem_signs)
    (sign_not_mem_jobType u _ colon_mem_signs) he
  obtain rfl := jobType_eq_of_word (String.toList_inj.mp ht)
  have hij : code ≠ none → ¬i.text.toList ++ [':'] <+: j.text.toList := by
    intro hc hp
    obtain ⟨c, rfl⟩ := Option.ne_none_iff_exists'.mp hc
    exact h.apart _ hf _ hf' ⟨rfl, hp⟩
  have hji : code' ≠ none → ¬j.text.toList ++ [':'] <+: i.text.toList := by
    intro hc hp
    obtain ⟨c, rfl⟩ := Option.ne_none_iff_exists'.mp hc
    exact h.apart _ hf' _ hf ⟨rfl, hp⟩
  cases code with
  | none =>
    cases code' with
    | none =>
      obtain rfl := Identity.text_inj (String.toList_inj.mp (by simpa using hrest))
      rfl
    | some c' => exact absurd ⟨c'.toList, by simpa using hrest.symm⟩ (hji (by simp))
  | some c =>
    cases code' with
    | none => exact absurd ⟨c.toList, by simpa using hrest⟩ (hij (by simp))
    | some c' =>
      obtain ⟨hi, hc⟩ := append_cons_first (hij (by simp)) (hji (by simp)) hrest
      obtain rfl := Identity.text_inj (String.toList_inj.mp hi)
      obtain rfl := String.toList_inj.mp hc
      rfl

theorem Legible.edge_inj (h : Legible facts) {p c p' c' : Identity} {w w' : Impact}
    (hf : .edge p c w ∈ facts) (hf' : .edge p' c' w' ∈ facts)
    (he : (Job.edgeLine p c w).toList = (Job.edgeLine p' c' w').toList) : Fact.edge p c w = .edge p' c' w' := by
  rw [Job.edgeLine_toList, Job.edgeLine_toList, List.append_cancel_left_eq] at he
  obtain ⟨hp, hrest⟩ := append_cons_first (h.apart _ hf _ hf') (h.apart _ hf' _ hf) he
  obtain rfl := Identity.text_inj (String.toList_inj.mp hp)
  -- read from the right: the weight stands after the last colon, the scoring after the one before
  have hlast : (c.text.toList ++ ':' :: (word w.scoring).toList) ++ ':' :: w.weightText.toList =
      (c'.text.toList ++ ':' :: (word w'.scoring).toList) ++ ':' :: w'.weightText.toList := by
    simpa using hrest
  obtain ⟨hinit, hw⟩ := append_cons_right (w.sign_not_mem_weightText _ colon_mem_signs)
    (w'.sign_not_mem_weightText _ colon_mem_signs) hlast
  obtain ⟨hc, hs⟩ := append_cons_right (sign_not_mem_scoring w.scoring _ colon_mem_signs)
    (sign_not_mem_scoring w'.scoring _ colon_mem_signs) hinit
  obtain rfl := Identity.text_inj (String.toList_inj.mp hc)
  obtain ⟨s, n⟩ := w
  obtain ⟨s', n'⟩ := w'
  obtain rfl := scoring_eq_of_word (String.toList_inj.mp hs)
  obtain rfl : n = n' := Impact.weight_eq_of_weightText hw
  rfl

theorem Legible.inj (h : Legible facts) (hf : f ∈ facts) (hf' : f' ∈ facts) (he : f.line = f'.line) : f = f' := by
  have hl := congrArg String.toList he
  cases f with
  | node i t code =>
    cases f' with
    | node j u code' => exact h.node_inj hf hf' hl
    | edge p c w =>
      rw [Fact.line, Fact.line, Job.nodeLine_toList, Job.edgeLine_toList] at hl
      exact absurd (List.cons.inj hl).1 (by decide)
  | edge p c w =>
    cases f' with
    | node j u code' =>
      rw [Fact.line, Fact.line, Job.nodeLine_toList, Job.edgeLine_toList] at hl
      exact absurd (List.cons.inj hl).1 (by decide)
    | edge p' c' w' => exact h.edge_inj hf hf' hl

end Fact

theorem lines_inj {ls ls' : List (List Char)} (h : ∀ l ∈ ls, '\n' ∉ l) (h' : ∀ l ∈ ls', '\n' ∉ l)
    (he : ls.flatMap (· ++ ['\n']) = ls'.flatMap (· ++ ['\n'])) : ls = ls' := by
  induction ls generalizing ls' with
  | nil =>
    cases ls' with
    | nil => rfl
    | cons l' ls' => simp at he
  | cons l ls ih =>
    cases ls' with
    | nil => simp at he
    | cons l' ls' =>
      simp only [List.flatMap_cons, List.append_assoc, List.singleton_append] at he
      obtain ⟨rfl, hrest⟩ := append_cons_left (h l List.mem_cons_self) (h' l' List.mem_cons_self) he
      rw [ih (fun l hl => h l (List.mem_cons_of_mem _ hl)) (fun l hl => h' l (List.mem_cons_of_mem _ hl)) hrest]

namespace Graph

variable {g g' : Graph}

theorem checksumText_toList (g : Graph) :
    g.checksumText.toList = "v1:".toList ++ (g.lines.map String.toList).flatMap (· ++ ['\n']) := by
  simp [checksumText, String.toList_append, String.toList_join, List.flatMap_map]

theorem mem_lines {l : String} : l ∈ g.lines ↔ ∃ f ∈ g.facts, f.line = l := by
  rw [lines_eq, List.mem_mergeSort, List.mem_map]

theorem facts_eq_of_checksumText_eq (hl : Fact.Legible (g.facts ++ g'.facts)) (h : g.checksumText = g'.checksumText) :
    ∀ f, f ∈ g.facts ↔ f ∈ g'.facts := by
  have oneLine : ∀ {k : Graph}, k.facts ⊆ g.facts ++ g'.facts → ∀ l ∈ k.lines.map String.toList, '\n' ∉ l := by
    intro k hk l hm
    obtain ⟨s, hs, rfl⟩ := List.mem_map.mp hm
    obtain ⟨f, hf, rfl⟩ := mem_lines.mp hs
    exact hl.oneLine f (hk hf)
  have hlines : g.lines = g'.lines := by
    have ht := congrArg String.toList h
    rw [checksumText_toList, checksumText_toList, List.append_cancel_left_eq] at ht
    have hmap := lines_inj (oneLine (List.subset_append_left ..)) (oneLine (List.subset_append_right ..)) ht
    exact (List.map_inj_right fun _ _ => String.toList_inj.mp).mp hmap
  intro f
  constructor
  · intro hf
    obtain ⟨f', hf', he⟩ := mem_lines.mp (hlines ▸ mem_lines.mpr ⟨f, hf, rfl⟩)
    rwa [← hl.inj (List.mem_append_right _ hf') (List.mem_append_left _ hf) he]
  · intro hf
    obtain ⟨f', hf', he⟩ := mem_lines.mp (hlines ▸ mem_lines.mpr ⟨f, hf, rfl⟩)
    rwa [← hl.inj (List.mem_append_left _ hf') (List.mem_append_right _ hf) he]

theorem shareMrns_facts (g : Graph) : g.shareMrns.facts = g.facts := by
  rw [facts, facts, shareMrns, List.flatMap_map]
  congr 1
  funext j
  split <;> rfl

theorem shareMrns_checksumText (g : Graph) : g.shareMrns.checksumText = g.checksumText := by
  rw [checksumText, checksumText, lines_eq, lines_eq, shareMrns_facts]

end Graph

theorem Bundle.resolve_checksum {b : Bundle} {r : Request} {res : Resolution} (h : b.resolve r = .ok res) :
    res.checksum = Digest.sha256Hex res.graph.checksumText.toUTF8.toList := by
  obtain ⟨scope, root, d, -, -, rfl⟩ := resolve_eq_ok.mp h
  simp only [finish, Graph.checksum, Graph.shareMrns_checksumText]

/-- The checksum is that of the graph's text, and legible texts that are equal come from the same
nodes and edges. -/
theorem Bundle.checksum_separates {b b' : Bundle} {r r' : Request} {res res' : Resolution} (h : b.resolve r = .ok res)
    (h' : b'.resolve r' = .ok res') (hl : Fact.Legible (res.graph.facts ++ res'.graph.facts))
    (ht : res.graph.checksumText = res'.graph.checksumText) :
    (res.checksum = Digest.sha256Hex res.graph.checksumText.toUTF8.toList ∧ res'.checksum = res.checksum) ∧
      ∀ f, f ∈ res.graph.facts ↔ f ∈ res'.graph.facts := by
  refine ⟨⟨resolve_checksum h, ?_⟩, Graph.facts_eq_of_checksumText_eq hl ht⟩
  rw [resolve_checksum h, resolve_checksum h', ht]

def laterRequest : Request := { policyRequest "p" with now := 1800000000 }

theorem mutualBundle_separates : ∃ res res', mutualBundle.resolve (policyRequest "p") = .ok res ∧
    mutualBundle.resolve laterRequest = .ok res' ∧ Fact.Legible (res.graph.facts ++ res'.graph.facts) ∧
      res.graph.checksumText = res'.graph.checksumText ∧
        (res.checksum = Digest.sha256Hex res.graph.checksumText.toUTF8.toList ∧ res'.checksum = res.checksum) ∧
          ∀ f, f ∈ res.graph.facts ↔ f ∈ res'.graph.facts := by
  have hp : mutualBundle.policies.find? "p" =
      some { mrn := "p", groups := [{ checks := [{ mrn := "x" }], policies := [{ mrn := "q" }] }] } := by decide +kernel
  have hs : (mutualBundle.scope ["p"]).covers Keyed.empty = true := by decide +kernel
  have h := Bundle.resolve_policyRequest hp hs
  have h' : mutualBundle.resolve laterRequest = _ := Bundle.resolve_of_policy rfl hp hs
  refine ⟨_, _, h, h', ?legible, ?text, Bundle.checksum_separates h h' ?legible ?text⟩
  case legible =>
    simp only [Bundle.finish, Graph.shareMrns_facts]
    refine .of_plain fun f hf id hid => ?_
    obtain ⟨hcolon, harrow, hnewline⟩ : ':' ∉ id.toList ∧ '>' ∉ id.toList ∧ '\n' ∉ id.toList := by
      revert f id
      decide +kernel
    exact forall_signs hcolon harrow hnewline
  case text =>
    simp only [Bundle.finish, Graph.checksumText, Graph.lines_eq]
    rw [Graph.mergeSort_eq_of_perm]
    decide +kernel

def arrowPolicy : Policy where
  mrn := "p"
  groups := [{ queries := [{ mrn := "r" }], policies := [{ mrn := "p>mrn:q" }] },
    { required := ["one"], queries := [{ mrn := "q>mrn:r" }] }]

def arrowBundle : Bundle where
  policies := .ofList [arrowPolicy, { mrn := "p>mrn:q", groups := [
    { queries := [{ mrn := "q>mrn:r" }] }, { required := ["two"], queries := [{ mrn := "r" }] }] }]
  queries := .ofList [{ mrn := "r", code := some { id := "cr" } }, { mrn := "q>mrn:r", code := some { id := "cq" } }]

def arrowRequest (k : PredicateId) : Request where
  target := .policy "p"
  asset := Keyed.ofList [k]
  now := 1700000000

theorem arrowBundle_ambiguous : ∃ res res', arrowBundle.resolve (arrowRequest "one") = .ok res ∧
    arrowBundle.resolve (arrowRequest "two") = .ok res' ∧ res.graph.checksumText = res'.graph.checksumText ∧
      .edge (.mrn "p") (.mrn "q>mrn:r") {} ∈ res.graph.facts ∧ .edge (.mrn "p") (.mrn "q>mrn:r") {} ∉ res'.graph.facts := by
  have hp : arrowBundle.policies.find? "p" = some arrowPolicy := by decide +kernel
  have hs : ∀ k, (arrowBundle.scope ["p"]).covers (arrowRequest k).asset = true := by
    intro k
    have hu : (arrowBundle.scope ["p"]).unconditional = true := by decide +kernel
    simp [Scope.covers, hu]
  refine ⟨_, _, Bundle.resolve_of_policy rfl hp (hs "one"), Bundle.resolve_of_policy rfl hp (hs "two"), ?_, ?_, ?_⟩
  · simp only [Bundle.finish, Graph.checksumText, Graph.lines_eq]
    rw [Graph.mergeSort_eq_of_perm]
    decide +kernel
  · simp only [Bundle.finish, Graph.shareMrns_facts]
    decide +kernel
  · simp only [Bundle.finish, Graph.shareMrns_facts]
    decide +kernel

end Compliance
