import Compliance.Execution.Config
import Compliance.Execution.Job
import Compliance.Proofs.Decoders
import Compliance.Report.Identity

namespace Compliance

open Json

/-- The form is read as `a`, and with all its members in the order of their names as `b`. -/
structure ReadsBack {α : Type} (item : Decoder α) (form : Value) (a b : α) : Prop where
  written : Reads item form a
  sorted : Reads item form.sorted b

theorem ReadsBack.of_fills {α : Type} {r : Record α} {ms : List (String × Value)} {a b : α} (hr : r.Commutes)
    (ha : r.Fills [] r.blank ms a) (hb : r.Fills [] r.blank (ms.map fun e => (e.1, e.2.sorted)) b) :
    ReadsBack r.decode (.object ms) a b := ⟨ha.reads, hb.reads_sorted hr⟩

theorem Code.readsBack (c : Code) : ReadsBack Code.record.decode c.encode c c := by
  have hfills : Code.record.Fills [] Code.record.blank [("id", .string c.id), ("source", .string c.source),
      ("entrypoints", .strings c.entrypoints), ("datapoints", .strings c.datapoints)] c :=
    .field rfl (by decide) (Field.read_must (reads_text c.id) _ _ _) <|
    .field rfl (by decide) (Field.read_of (reads_text c.source) _ _ _) <|
    .field rfl (by decide) (Field.read_of (reads_list fun s _ => reads_text s) _ _ _) <|
    .field rfl (by decide) (Field.read_of (reads_list fun s _ => reads_text s) _ _ _) <|
    .done (by decide)
  refine .of_fills (by simp [Record.Commutes, Code.record]) hfills ?_
  simpa only [List.map_cons, List.map_nil, Value.sorted, sorted_strings] using hfills

namespace RawData

def sorted (d : RawData) : RawData := { d with value := d.value.sorted }

theorem sorted_sorted (d : RawData) : d.sorted.sorted = d.sorted := by simp only [sorted, Json.sorted_sorted]

def members (v : Value) (error : Option String) : List (String × Value) :=
  ("value", v) :: (error.map fun e => ("error", Value.string e)).toList

theorem encode_eq (d : RawData) : d.encode = .object (members d.value d.error) := by
  cases d with
  | mk value error => cases error <;> rfl

theorem fills_members (v : Value) (error : Option String) :
    RawData.record.Fills [] RawData.record.blank (members v error) { value := v, error := error } := by
  have hvalue : Reads decodeValue v v := reads_value v
  cases error with
  | none => exact .field rfl (by decide) (Field.read_of hvalue _ _ _) <| .done (by decide)
  | some e =>
    exact .field rfl (by decide) (Field.read_of hvalue _ _ _) <|
      .field rfl (by decide) (Field.read_of ((reads_text e).nullable (by simp)) _ _ _) <|
      .done (by decide)

theorem sorted_members (v : Value) (error : Option String) :
    ((members v error).map fun e => (e.1, e.2.sorted)) = members v.sorted error := by
  cases error <;> simp [members, Value.sorted]

theorem readsBack (d : RawData) : ReadsBack RawData.record.decode d.encode d d.sorted := by
  rw [encode_eq]
  refine .of_fills (by simp [Record.Commutes, RawData.record]) (fills_members d.value d.error) ?_
  rw [sorted_members]
  exact fills_members d.value.sorted d.error

end RawData

theorem ReadsBack.map {α : Type} {item : Decoder α} {f : α → Value} {g : α → α} (h : ∀ a, ReadsBack item (f a) a (g a))
    (m : NameMap α) : ReadsBack (decodeMap item) (.ofMap f m) m (m.mapValues g) where
  written := by
    have hmap : Reads (decodeMap item) (.ofMap f m) (m.mapValues fun a => a) := reads_map fun a _ => (h a).written
    rwa [NameMap.mapValues_id] at hmap
  sorted := by
    rw [sorted_ofMap]
    exact reads_map fun a _ => (h a).sorted

theorem ReadsBack.map_self {α : Type} {item : Decoder α} {f : α → Value} (h : ∀ a, ReadsBack item (f a) a a)
    (m : NameMap α) : ReadsBack (decodeMap item) (.ofMap f m) m m := by
  simpa using ReadsBack.map (g := fun a => a) h m

namespace QueueItem

def sorted (i : QueueItem) : QueueItem := { i with properties := i.properties.mapValues RawData.sorted }

theorem sorted_sorted (i : QueueItem) : i.sorted.sorted = i.sorted := by
  simp only [sorted, NameMap.mapValues_mapValues, RawData.sorted_sorted]

theorem readsBack (i : QueueItem) : ReadsBack QueueItem.record.decode i.encode i i.sorted := by
  have hfills {code props : Value} {m : NameMap RawData} (hcode : Reads Code.record.decode code i.code)
      (hprops : Reads (decodeMap RawData.record.decode) props m) :
      QueueItem.record.Fills [] QueueItem.record.blank [("code", code), ("props", props)] { i with properties := m } :=
    .field rfl (by decide) (Field.read_must hcode _ _ _) <|
    .field rfl (by decide) (Field.read_of hprops _ _ _) <|
    .done (by decide)
  have hcode := i.code.readsBack
  have hprops := ReadsBack.map RawData.readsBack i.properties
  exact .of_fills (by simp [Record.Commutes, QueueItem.record])
    (hfills hcode.written hprops.written) (hfills hcode.sorted hprops.sorted)

end QueueItem

namespace ExecutionQuery

theorem readsBack (q : ExecutionQuery) : ReadsBack ExecutionQuery.record.decode q.encode q q := by
  have hfills {code properties : Value} (hcode : Reads Code.record.decode code q.code)
      (hproperties : Reads (decodeMap decodeText) properties q.properties) :
      ExecutionQuery.record.Fills [] ExecutionQuery.record.blank
        [("query_mrn", .string q.query), ("code", code), ("properties", properties)] q :=
    .field rfl (by decide) (Field.read_must (reads_text q.query) _ _ _) <|
    .field rfl (by decide) (Field.read_must hcode _ _ _) <|
    .field rfl (by decide) (Field.read_must hproperties _ _ _) <|
    .done (by decide)
  have hcode := q.code.readsBack
  have hproperties : ReadsBack (decodeMap decodeText) (.ofMap .string q.properties) q.properties q.properties :=
    ReadsBack.map_self (fun s => ⟨reads_text s, reads_text s⟩) q.properties
  exact .of_fills (by simp [Record.Commutes, ExecutionQuery.record]) (hfills hcode.written hproperties.written)
    (hfills hcode.sorted hproperties.sorted)

end ExecutionQuery

theorem ExecutionJob.readsBack (j : ExecutionJob) : ReadsBack ExecutionJob.record.decode j.encode j j := by
  have hfills {queries : Value} (h : Reads (decodeMap ExecutionQuery.record.decode) queries j.queries) :
      ExecutionJob.record.Fills [] ExecutionJob.record.blank [("queries", queries)] j :=
    .field rfl (by decide) (Field.read_must h _ _ _) <| .done (by decide)
  have hqueries := ReadsBack.map_self ExecutionQuery.readsBack j.queries
  exact .of_fills (List.pairwise_singleton _ _) (hfills hqueries.written) (hfills hqueries.sorted)

theorem ScoringSystem.find?_word (s : ScoringSystem) : Vocabulary.find? (word s) = some s := by
  cases s <;> decide

namespace Impact

theorem readsBack (i : Impact) : ReadsBack Impact.record.decode i.encode i i := by
  have hscoring : Reads (decodeWord ScoringSystem) (.string (word i.scoring)) i.scoring :=
    reads_word i.scoring.find?_word
  have hweight : Reads (decodeNullable decodeUInt32) (.nullable (fun w => .int w.toNat) i.weight) i.weight := by
    cases i.weight with
    | none => exact reads_nullable_null _
    | some w => exact (reads_uint32 w).nullable (by simp [Value.int])
  have hfills : Impact.record.Fills [] Impact.record.blank
      [("scoring", .string (word i.scoring)), ("weight", .nullable (fun w => .int w.toNat) i.weight)] i :=
    .field rfl (by decide) (Field.read_must hscoring _ _ _) <|
    .field rfl (by decide) (Field.read_of hweight _ _ _) <|
    .done (by decide)
  refine .of_fills (by simp [Record.Commutes, Impact.record]) hfills ?_
  cases hw : i.weight <;> simpa [Value.nullable, Value.int, Value.sorted, hw] using hfills

end Impact

def Duration.truncate (d : Duration) : Duration := .ofSeconds d.seconds

namespace Config

def truncate (c : Config) : Config := { c with timeout := c.timeout.truncate, slow := c.slow.truncate }

theorem reads_seconds (d : Duration) : Reads decodeSeconds (.int d.seconds.toNat) d.truncate :=
  (reads_uint64 d.seconds).map Duration.ofSeconds

theorem readsBack (c : Config) : ReadsBack Config.record.decode c.encode c.truncate c.truncate := by
  have hfills : Config.record.Fills [] Config.record.blank [("timeout_secs", .int c.timeout.seconds.toNat),
      ("mem_debug", .bool c.memDebug), ("slow_query_threshold_secs", .int c.slow.seconds.toNat)] c.truncate :=
    .field rfl (by decide) (Field.read_of (reads_seconds c.timeout) _ _ _) <|
    .field rfl (by decide) (Field.read_of (reads_bool c.memDebug) _ _ _) <|
    .field rfl (by decide) (Field.read_of (reads_seconds c.slow) _ _ _) <|
    .done (by decide)
  exact .of_fills (by simp [Record.Commutes, Config.record]) hfills hfills

theorem encode_truncate (c : Config) : c.truncate.encode = c.encode := rfl

theorem truncate_eq_iff {c : Config} : c.truncate = c ↔ c.timeout.truncate = c.timeout ∧ c.slow.truncate = c.slow := by
  cases c
  simp [truncate]

theorem truncate_of_decodeSeconds {d : Document} {t : Duration} (h : decodeSeconds d = .ok t) : t.truncate = t := by
  obtain ⟨n, -, rfl⟩ := exists_of_map_eq_ok h
  rfl

theorem truncate_of_decode {d : Document} {c : Config} (h : Config.record.decode d = .ok c) : c.truncate = c := by
  rw [truncate_eq_iff]
  refine Record.decode_induction (P := fun c => c.timeout.truncate = c.timeout ∧ c.slow.truncate = c.slow)
    ⟨rfl, rfl⟩ (fun f hf d a b ha hread => ?_) h
  simp only [record, List.mem_cons, List.not_mem_nil, or_false] at hf
  rcases hf with rfl | rfl | rfl
  · obtain ⟨t, ht, rfl⟩ := exists_of_map_eq_ok hread
    exact ⟨truncate_of_decodeSeconds ht, ha.2⟩
  · obtain ⟨debug, -, rfl⟩ := exists_of_map_eq_ok hread
    exact ha
  · obtain ⟨t, ht, rfl⟩ := exists_of_map_eq_ok hread
    exact ⟨ha.1, truncate_of_decodeSeconds ht⟩

theorem truncate_of_parseTimeout {s : String} {t : Duration} (h : parseTimeout s = some t) : t.truncate = t := by
  unfold parseTimeout at h
  split at h
  · cases h
  · split at h
    · cases h
    · cases h
      rfl

theorem truncate_of_environment (timeout memDebug : Option String) :
    (ofEnvironment timeout memDebug).1.truncate = (ofEnvironment timeout memDebug).1 := by
  unfold ofEnvironment
  cases timeout with
  | none => rfl
  | some raw =>
    cases h : parseTimeout raw with
    | none => simp only [h]; rfl
    | some t => simpa only [h, truncate_eq_iff] using ⟨truncate_of_parseTimeout h, rfl⟩

end Config

structure WireForms : Prop where
  data (d : RawData) : ReadsBack RawData.record.decode d.encode d d.sorted
  data_ordered (d : RawData) : d.sorted.sorted = d.sorted
  error (d : RawData) (ms : List (String × Value)) : d.encode = .object ms →
    ("error" ∈ ms.map Prod.fst ↔ d.isError = true)
  item (i : QueueItem) : ReadsBack QueueItem.record.decode i.encode i i.sorted
  item_ordered (i : QueueItem) : i.sorted.sorted = i.sorted
  query (q : ExecutionQuery) : ReadsBack ExecutionQuery.record.decode q.encode q q
  job (j : ExecutionJob) : ReadsBack ExecutionJob.record.decode j.encode j j
  impact (i : Impact) : ReadsBack Impact.record.decode i.encode i i
  config (c : Config) : ReadsBack Config.record.decode c.encode c.truncate c.truncate
  again (c c' : Config) : Reads Config.record.decode c.encode c' ∨ Reads Config.record.decode c.encode.sorted c' →
    c'.encode = c.encode
  decoded (d : Document) (c : Config) : Config.record.decode d = .ok c → ReadsBack Config.record.decode c.encode c c
  environment (timeout debug : Option String) (c : Config) : (Config.ofEnvironment timeout debug).1 = c →
    ReadsBack Config.record.decode c.encode c c

theorem wireForms : WireForms where
  data := RawData.readsBack
  data_ordered := RawData.sorted_sorted
  error d ms h := by
    rw [RawData.encode_eq] at h
    cases h
    cases he : d.error <;> simp [RawData.members, RawData.isError, he]
  item := QueueItem.readsBack
  item_ordered := QueueItem.sorted_sorted
  query := ExecutionQuery.readsBack
  job := ExecutionJob.readsBack
  impact := Impact.readsBack
  config := Config.readsBack
  again c c' h := by
    have hback := c.readsBack
    have htruncate : c.truncate = c' := by
      rcases h with h | h
      · exact Except.ok.inj (hback.written.symm.trans h)
      · exact Except.ok.inj (hback.sorted.symm.trans h)
    rw [← htruncate, c.encode_truncate]
  decoded d c h := by
    have hback := c.readsBack
    rwa [Config.truncate_of_decode h] at hback
  environment timeout debug c h := by
    have hback := c.readsBack
    rwa [← h, Config.truncate_of_environment, h] at hback

end Compliance
