import PointsTo.Proofs.Disk.Files
import PointsTo.Proofs.Json
import PointsTo.Proofs.Text
import PointsTo.Proofs.Timestamp
import PointsTo.Proofs.WorkDir
import PointsTo.Report

/-!
Reading a report back from its file. The bytes are UTF-8, the text spells one JSON value,
and the members of that value are the parts of the report.
-/

namespace PointsTo

namespace Json

def member? (name : String) : Json → Option Json
  | object members => members.lookup name
  | _ => none

def toText? : Json → Option String
  | string s => some s
  | _ => none

def toFlag? : Json → Option Bool
  | bool b => some b
  | _ => none

def toInt? : Json → Option Int
  | number n => some n
  | _ => none

def toNat? : Json → Option Nat
  | number (.ofNat n) => some n
  | _ => none

def toItems? : Json → Option (List Json)
  | array items => some items
  | _ => none

def orNull? {α : Type} (f : Json → Option α) : Json → Option (Option α)
  | null => some none
  | j => (f j).map some

end Json

namespace StageReport

open Json

def ofJson? (j : Json) : Option StageReport := do
  let id ← (j.member? "id").bind toText?
  let exitCode ← (j.member? "exit_code").bind (orNull? toInt?)
  let success ← (j.member? "success").bind toFlag?
  let latencyMs ← (j.member? "latency_ms").bind toNat?
  let outputHash ← (j.member? "output_hash").bind (orNull? toText?)
  let summary ← orNull? toText? ((j.member? "summary").getD null)
  some ⟨id, exitCode, success, latencyMs, outputHash, summary⟩

theorem ofJson?_toJson (r : StageReport) : ofJson? r.toJson = some r := by
  obtain ⟨id, exitCode, success, latencyMs, outputHash, summary⟩ := r
  cases exitCode <;> cases outputHash <;> cases summary <;> rfl

end StageReport

namespace Report

open Json

def ofJson? (j : Json) : Option Report := do
  let runId ← (j.member? "run_id").bind toText?
  let pipelineId ← (j.member? "pipeline_id").bind toText?
  let startedAt ← ((j.member? "started_at").bind toText?).bind fun s => Timestamp.read? s.toList
  let finishedAt ← ((j.member? "finished_at").bind toText?).bind fun s => Timestamp.read? s.toList
  let stages ← ((j.member? "stages").bind toItems?).bind fun js => js.mapM StageReport.ofJson?
  some ⟨runId, pipelineId, startedAt, finishedAt, stages⟩

theorem mapM_toJson (stages : List StageReport) :
    stages.mapM (StageReport.ofJson? ∘ StageReport.toJson) = some stages := by
  induction stages with
  | nil => rfl
  | cons stage stages ih => simp [ih, StageReport.ofJson?_toJson]

theorem ofJson?_toJson {r : Report} (hstarted : r.startedAt.Proper) (hfinished : r.finishedAt.Proper) :
    ofJson? r.toJson = some r := by
  obtain ⟨runId, pipelineId, startedAt, finishedAt, stages⟩ := r
  simp [ofJson?, toJson, member?, toText?, toItems?, Timestamp.read?_text hstarted,
    Timestamp.read?_text hfinished, mapM_toJson, List.lookup_cons]

/-- The bytes are a JSON document in UTF-8 that has the parts of a report. -/
def Denotes (bytes : Bytes) (r : Report) : Prop :=
  ∃ text j, Text.encode text = bytes ∧ Document j text.toList ∧ ofJson? j = some r

theorem denotes_iff {r r' : Report} (hstarted : r.startedAt.Proper) (hfinished : r.finishedAt.Proper) :
    Denotes (Text.encode r.toJson.text) r' ↔ r' = r := by
  constructor
  · rintro ⟨text, j, htext, hdocument, hj⟩
    cases Text.encode_inj htext
    cases hdocument.unique (document_text r.toJson)
    exact Option.some.inj (hj.symm.trans (ofJson?_toJson hstarted hfinished))
  · rintro rfl
    exact ⟨_, _, rfl, document_text r'.toJson, ofJson?_toJson hstarted hfinished⟩

theorem read_of_write {r : Report} {path : Path} {d d' : Disk} (h : r.write path d = (.ok (), d')) :
    d'.read path = .ok (Text.encode r.toJson.text) := by
  rcases Disk.change_cases h with ⟨_, hwrite⟩ | ⟨_, _, hr, _⟩
  · exact Disk.read_of_write hwrite
  · cases hr

theorem write_of_destination {r : Report} {path : Path} {d : Disk} {l : Location}
    (h : d.destination path = .ok l) :
    r.write path d = (.ok (), d.written l (Text.encode r.toJson.text)) :=
  Disk.change_ok (Disk.write_of_destination h _)

/-- A report that is written can be read from its file, as that report and as no other.
So two reports with the same file are the same. -/
theorem written_report_is_lossless (r : Report) (path : Path) (d d' : Disk)
    (hstarted : r.startedAt.Proper) (hfinished : r.finishedAt.Proper)
    (hwrite : r.write path d = (.ok (), d')) :
    ∃ bytes, d'.read path = .ok bytes ∧ (∀ r', Denotes bytes r' ↔ r' = r) ∧
      ∀ (r' : Report) (path' : Path) (e e' : Disk), r'.startedAt.Proper → r'.finishedAt.Proper →
        r'.write path' e = (.ok (), e') → e'.read path' = .ok bytes → r' = r := by
  refine ⟨_, read_of_write hwrite, fun r' => denotes_iff hstarted hfinished, ?_⟩
  intro r' path' e e' hstarted' hfinished' hwrite' hread
  have hbytes := Except.ok.inj ((read_of_write hwrite').symm.trans hread)
  have hdenotes : Denotes (Text.encode r'.toJson.text) r' :=
    (denotes_iff hstarted' hfinished').2 rfl
  rw [hbytes] at hdenotes
  exact (denotes_iff hstarted hfinished).1 hdenotes

/-- A run that ended in a leap second, with one stage that no process belongs to. -/
def leapReport : Report where
  runId := "q\"\\\n\x01"
  pipelineId := "é𝄞"
  startedAt := ⟨-1, 5000⟩
  finishedAt := ⟨1483228799, 1500000000⟩
  stages := [⟨"prepare", none, true, 0, none, some ""⟩, ⟨"solve", some (-1), false, 7, some "b", none⟩]

theorem leapReport_is_lossless :
    ∃ bytes, (leapReport.write ⟨"/report.json"⟩ (.holding [])).2.read ⟨"/report.json"⟩ = .ok bytes ∧
      ∀ r', Denotes bytes r' ↔ r' = leapReport := by
  have hdestination : (Disk.holding []).destination ⟨"/report.json"⟩ = .ok ["report.json"] := by
    decide +kernel
  have hstarted : leapReport.startedAt.Proper := Or.inl (show 5000 < 1000000000 by omega)
  have hfinished : leapReport.finishedAt.Proper :=
    Or.inr ⟨show 1500000000 < 2000000000 by omega, show (1483228799 : Int) % 60 = 59 by decide⟩
  have hwrite := write_of_destination (r := leapReport) hdestination
  obtain ⟨bytes, hread, hdenotes, -⟩ := written_report_is_lossless leapReport ⟨"/report.json"⟩ _ _
    hstarted hfinished hwrite
  have hdisk : (leapReport.write ⟨"/report.json"⟩ (.holding [])).2 = _ := congrArg Prod.snd hwrite
  exact ⟨bytes, by rw [hdisk]; exact hread, hdenotes⟩

/-- A leap second in the midst of a minute is lost: the report has the file of another one
and is read as that. At the end of a minute it is written as the second 60, whether or not
the minute is one that has it. -/
theorem stray_leap_second_is_lost :
    let r : Report := { leapReport with startedAt := ⟨4, 1333333333⟩ }
    let next : Report := { leapReport with startedAt := ⟨5, 333333333⟩ }
    (r ≠ next ∧ r.write = next.write ∧
      ∀ r', Denotes (Text.encode r.toJson.text) r' ↔ r' = next) ∧
    (⟨59, 1333333333⟩ : Timestamp).text = "1970-01-01T00:00:60.333333333Z" := by
  intro r next
  have htext : r.startedAt.text = next.startedAt.text :=
    @Timestamp.text_of_stray_leap 4 333333333 (by decide) (by decide)
  have hjson : r.toJson = next.toJson := by
    rw [toJson, htext]
    rfl
  have hnext : next.startedAt.Proper := Or.inl (show 333333333 < 1000000000 by omega)
  have hfinished : next.finishedAt.Proper :=
    Or.inr ⟨show 1500000000 < 2000000000 by omega, show (1483228799 : Int) % 60 = 59 by decide⟩
  refine ⟨⟨fun h => ?_, ?_, fun r' => ?_⟩, by decide +kernel⟩
  · exact absurd (congrArg Report.startedAt h) (by decide)
  · funext path
    rw [write, write, hjson]
  · rw [hjson]
    exact denotes_iff hnext hfinished

end Report
end PointsTo
