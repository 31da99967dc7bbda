import PipelineX.SyntheticStream
import PipelineX.PipedLines
import PipelineX.OnlineTraining

/-!
# A generated file in the pipeline

What `_write_stream` writes is read back by the file source in lines, whatever
blocks of bytes it comes in. No line of it is lost in the pipeline.
-/

set_option autoImplicit false

namespace PipelineX.SyntheticFiles
open PipelineX.Records PipelineX.Parsers PipelineX.TextFile PipelineX.LogSources
open PipelineX.SyntheticLogs PipelineX.TransitionSystem PipelineX.Stages PipelineX.StatelessStages
open PipelineX.OnlineTraining PipelineX.CivilDate PipelineX.Executor PipelineX.ExecutorPhases
open PipelineX.ExecutorOrder

/-- The loop of `_write_stream`. Whether the deadline has passed at a line is an
input. -/
def writeFrom (total : Option ℕ) (late : ℕ → Bool) : ℕ → List (List Char) → List Char
  | _, [] => []
  | i, line::rest =>
    if total.any (fun n => decide (n ≤ i)) = true ∨ late i = true then []
    else line ++ '\n'::writeFrom total late (i+1) rest

def writeStream (total : Option ℕ) (late : ℕ → Bool) (stream : List (List Char)) : List Char :=
  writeFrom total late 0 stream

/-- Lines with a newline after each. -/
def written (lines : List (List Char)) : List Char := lines.flatMap (fun line => line ++ ['\n'])

/-- The first lines are written, as many as asked for when no deadline passes. -/
theorem writeFrom_take (total : Option ℕ) (late : ℕ → Bool) (i : ℕ) (stream : List (List Char)) :
    ∃ n, writeFrom total late i stream = written (stream.take n) ∧
      ∀ k, total = some k → (∀ j, late j = false) → n = k-i := by
  induction stream generalizing i with
  | nil =>
    refine ⟨total.getD 0-i,by simp [writeFrom, written],?_⟩
    rintro k rfl _
    rfl
  | cons line rest ih =>
    rw [writeFrom]
    split
    · next hstop =>
      refine ⟨0,rfl,?_⟩
      rintro k rfl hlate
      have hle : k ≤ i := by simpa [hlate] using hstop
      omega
    · next hgo =>
      obtain ⟨n,hn,hcount⟩ := ih (i+1)
      refine ⟨n+1,by simp [hn, written],?_⟩
      rintro k rfl hlate
      have hlt : i < k := by simpa [hlate] using hgo
      have := hcount k rfl hlate
      omega

/-- A line that a text file can have. -/
def IsLine (line : List Char) : Prop := line ≠ [] ∧ ∀ c ∈ line, Printable c

theorem IsLine.newline {line : List Char} (h : IsLine line) : '\n' ∉ line :=
  fun hc => printable_ne (h.2 _ hc) (by decide) rfl

theorem lines_written {lines : List (List Char)} (h : ∀ l ∈ lines, IsLine l) :
    TextFile.lines (written lines) = lines.map (fun l => l ++ ['\n']) := by
  have hreturn : '\r' ∉ written lines := by
    intro hmem
    obtain ⟨l,hl,hc⟩ := List.mem_flatMap.mp hmem
    rcases List.mem_append.mp hc with hc | hc
    · exact printable_ne ((h l hl).2 _ hc) (by decide) rfl
    · exact absurd (List.mem_singleton.mp hc) (by decide)
  rw [TextFile.lines, translate_self hreturn]
  clear hreturn
  induction lines with
  | nil => rfl
  | cons l rest ih =>
    rw [written, List.flatMap_cons, List.append_assoc, List.singleton_append,
      linesFrom_line (h l List.mem_cons_self).newline, List.map_cons, List.nil_append]
    exact congrArg _ (ih fun m hm => h m (List.mem_cons_of_mem _ hm))

theorem streamText_written {lines : List (List Char)} (h : ∀ l ∈ lines, IsLine l) :
    FileLogSource.streamText (written lines) = lines := by
  rw [FileLogSource.streamText, lines_written h, FileLogSource.iterLines_eq, List.map_map]
  have hback : lines.map (rstripNewline ∘ fun l => l ++ ['\n']) = lines.map id :=
    List.map_congr_left fun l hl => (rstripNewline_line (h l hl).newline).2
  rw [hback, List.map_id, List.filter_eq_self]
  exact fun l hl => decide_eq_true (h l hl).1

/-- The bytes of a text of ASCII. -/
def encode (text : List Char) : List UInt8 := text.map (fun c => UInt8.ofNat c.toNat)

theorem decode_encode {text : List Char} (h : ∀ c ∈ text, c.toNat < 128) :
    utf8.decode {} (encode text) = .ok ({},text) := by
  induction text with
  | nil => rfl
  | cons c cs ih =>
    have hc := h c List.mem_cons_self
    have hbyte : (UInt8.ofNat c.toNat).toNat = c.toNat := by
      simp [Nat.mod_eq_of_lt (show c.toNat < 256 by omega)]
    have hnext : utf8.next {} (UInt8.ofNat c.toNat) = .ok ({},[c]) := by
      simp [utf8, hbyte, hc, Char.ofNat_toNat]
    rw [encode, List.map_cons, Decoder.decode, hnext]
    dsimp only
    rw [← encode, ih fun e he => h e (List.mem_cons_of_mem _ he)]
    rfl

theorem hdfsStream_isLine {anomalyRate : ℚ} {blocks : List BlockDraw} {draws : List LineDraw}
    {line : List Char} (h : line ∈ hdfsStream anomalyRate blocks draws) : IsLine line := by
  obtain ⟨k,hk⟩ := List.mem_iff_getElem?.mp h
  obtain ⟨j,event,blk,d,_,_,rfl⟩ := hdfsStream_line hk
  exact ⟨by simp [formatHdfsLine],formatHdfsLine_printable _ _ _ _ _⟩

/-- Lines that are written are the lines that are read. -/
theorem stream_written {files : Files} (path : String) {suffix : String}
    (hsuffix : suffix ≠ ".gz") {content : List UInt8} {lines : List (List Char)}
    (hlines : ∀ l ∈ lines, IsLine l)
    (hfile : (files.plain content).fault = none ∧
      (files.plain content).blocks.flatten = encode (written lines)) :
    FileLogSource.stream utf8 files path suffix content = ⟨lines,none⟩ := by
  have hascii : ∀ c ∈ written lines, c.toNat < 128 := by
    intro c hc
    obtain ⟨l,hl,hc⟩ := List.mem_flatMap.mp hc
    rcases List.mem_append.mp hc with hc | hc
    · exact ((hlines l hl).2 c hc).2.trans (by decide)
    · rw [List.mem_singleton.mp hc]
      decide
  have hplain : FileLogSource.reading files suffix content = files.plain content :=
    if_neg hsuffix
  have htext : HasText utf8 (FileLogSource.reading files suffix content) (written lines) :=
    hplain ▸ ⟨hfile.1,_,hfile.2 ▸ decode_encode hascii,rfl⟩
  rw [stream_text htext, streamText_written hlines]

section
variable {σ : Type}

/-- The stages leave what the parser found. -/
theorem staged_readBack (patterns : List (String × Regex)) (cfg : Executor.Config) (n : ℕ)
    (l : String) {t : Datetime} {pid : ℕ} {event : HdfsEvent} {blk : ℤ} {d : LineDraw}
    {parsed : LogRecord} (h : ReadBack t pid event blk d parsed) :
    ReadBack t pid event blk d (staged patterns (shell cfg n l) parsed) := by
  have hblock := h.block
  have hwarning := h.noWarning
  unfold staged matchTemplate
  cases matchEventId (TemplateMatcher.matchers patterns) _ with
  | none => exact ⟨h.timestamp,h.pid,h.source,h.message,h.severity,hwarning,hblock⟩
  | some e =>
    refine ⟨h.timestamp,h.pid,h.source,h.message,h.severity,?_,?_⟩
    · simpa [LogRecord.addEnrichment, LogRecord.markStage, adopt, shell,
        OrderedDict.empty, OrderedDict.get?_insert_of_ne] using hwarning
    · simpa [LogRecord.addEnrichment, LogRecord.markStage, adopt, shell,
        OrderedDict.empty, OrderedDict.get?_insert_of_ne] using hblock

/-- What becomes of a line of the generator. -/
theorem becomes_line (chars : CharTable) (id : UUID) (patterns : List (String × Regex))
    (cfg : Executor.Config) (w : σ) {anomalyRate : ℚ} {blocks : List BlockDraw}
    {draws : List LineDraw} {k : ℕ} {line : List Char}
    (hline : (hdfsStream anomalyRate blocks draws)[k]? = some line) :
    ∃ j event blk d r, (hdfsTaken anomalyRate blocks draws)[k]? = some (j,event,blk) ∧
      draws[k]? = some d ∧ r.id = k ∧
      (runStages (hdfsFront chars id patterns) w (shell cfg k (String.ofList line))).2.1 = .ok r ∧
      ReadBack (midnight hdfsBase + hdfsSeconds d*1000000) (100+k) event blk d r := by
  obtain ⟨j,event,blk,d,htaken,hdraw,rfl⟩ := hdfsStream_line hline
  obtain ⟨parsed,hparsed,hread⟩ :=
    parse_formatHdfsLine chars id (hdfsTs_year d) (100+k) event blk d
  rw [hdfsTs_instant] at hread
  have hmessage : parsed.message ≠ "" := by
    rw [hread.message, content_split]
    simp [blockText]
  have hout := runStages_hdfs chars id patterns cfg k
    (String.ofList (formatHdfsLine (hdfsTs d) (100+k) event blk d)) w
  simp only [hparsed, Except.toOption, Option.bind_some, if_neg hmessage] at hout
  have hread := staged_readBack patterns cfg k
    (String.ofList (formatHdfsLine (hdfsTs d) (100+k) event blk d)) hread
  split at hout
  · next r hr =>
    cases Option.some.inj hout
    exact ⟨j,event,blk,d,_,htaken,hdraw,(runStages_carries _ _ _ _ hr).1,hr,hread⟩
  · cases hout

theorem mem_shells_iff {cfg : Executor.Config} {n : ℕ} {ls : List String} {r : LogRecord} :
    r ∈ shells cfg n ls ↔ ∃ k l, ls[k]? = some l ∧ r = shell cfg (n+k) l := by
  constructor
  · intro hr
    obtain ⟨k,l,hk,hl,hshell⟩ := mem_shells hr
    exact ⟨k,l,hl,hk ▸ hshell⟩
  · rintro ⟨k,l,hl,rfl⟩
    induction ls generalizing n k with
    | nil => cases hl
    | cons m ls ih =>
      cases k with
      | zero =>
        cases hl
        exact List.mem_cons_self
      | succ k =>
        have hin := ih (n := n+1) k hl
        rw [Nat.add_right_comm] at hin
        exact List.mem_cons_of_mem _ hin

/-- The first stages let every line pass. -/
theorem survivors_lines (chars : CharTable) (id : UUID) (patterns : List (String × Regex))
    (cfg : Executor.Config) (w : σ) {anomalyRate : ℚ} {blocks : List BlockDraw}
    {draws : List LineDraw} {lines : List (List Char)}
    (hlines : lines <+: hdfsStream anomalyRate blocks draws) :
    let survivors := (shells cfg 0 (lines.map String.ofList)).filterMap
      (fun s => (runStages (hdfsFront chars id patterns) w s).2.1.toOption)
    survivors.length = lines.length ∧
      ∀ k line, lines[k]? = some line → ∃ j event blk d r,
        (hdfsTaken anomalyRate blocks draws)[k]? = some (j,event,blk) ∧ draws[k]? = some d ∧
        r ∈ survivors ∧ r.id = k ∧
        ReadBack (midnight hdfsBase + hdfsSeconds d*1000000) (100+k) event blk d r := by
  obtain ⟨rest,hrest⟩ := hlines
  have hstream {k : ℕ} {line : List Char} (hk : lines[k]? = some line) :
      (hdfsStream anomalyRate blocks draws)[k]? = some line := by
    rw [← hrest, List.getElem?_append_left (List.getElem?_eq_some_iff.mp hk).1, hk]
  constructor
  · have hids := congrArg List.length (@shells_ids cfg 0 (lines.map String.ofList))
    rw [List.length_map, List.length_range', List.length_map] at hids
    refine (List.filterMap_length_eq_length.mpr fun s hs => ?_).trans hids
    obtain ⟨k,l,hl,rfl⟩ := mem_shells_iff.mp hs
    rw [List.getElem?_map, Option.map_eq_some_iff] at hl
    obtain ⟨line,hline,rfl⟩ := hl
    obtain ⟨j,event,blk,d,r,_,_,_,hout,_⟩ :=
      becomes_line chars id patterns cfg w (hstream hline)
    rw [Nat.zero_add, hout]
    rfl
  · intro k line hline
    obtain ⟨j,event,blk,d,r,htaken,hdraw,hid,hout,hread⟩ :=
      becomes_line chars id patterns cfg w (hstream hline)
    refine ⟨j,event,blk,d,r,htaken,hdraw,?_,hid,hread⟩
    refine List.mem_filterMap.mpr ⟨shell cfg k (String.ofList line),?_,by rw [hout]; rfl⟩
    exact mem_shells_iff.mpr ⟨k,_,by rw [List.getElem?_map, hline]; rfl,by rw [Nat.zero_add]⟩

/-- A file of the generator, of whatever suffix but that of a compressed file,
goes through the pipeline without a loss. It is read in the lines that were
written. In every run that returns and whose saves all worked, every line is
counted as processed and none as failed, and a record is stored for each line
with what it was generated from. -/
theorem generated_run (chars : CharTable) (id : UUID) (patterns : List (String × Regex))
    (cfg : Executor.Config) (w w' : σ) (anomalyRate : ℚ) (blocks : List BlockDraw)
    (draws : List LineDraw) (total : Option ℕ) (late : ℕ → Bool) (files : Files)
    (path suffix : String) (hsuffix : suffix ≠ ".gz") (content : List UInt8) (ls : List Label)
    (t : State)
    (hfile : (files.plain content).fault = none ∧ (files.plain content).blocks.flatten =
      encode (writeStream total late (hdfsStream anomalyRate blocks draws)))
    (hnames : cfg.stageNames = (hdfsFront (σ := σ) chars id patterns).map Stage.name)
    (hrun : run (drivenStep cfg (hdfsFront chars id patterns)) (initial cfg
      ((FileLogSource.stream utf8 files path suffix content).yielded.map String.ofList),w) ls =
        some (t,w'))
    (hret : t.main = .returned) (hsaves : ∀ c ∈ t.shared.saves, c.outcome = .stored) :
    ∃ n, (∀ k, total = some k → (∀ i, late i = false) → n = k) ∧
      FileLogSource.stream utf8 files path suffix content =
        ⟨(hdfsStream anomalyRate blocks draws).take n,none⟩ ∧
      t.shared.recordsProcessed = ((hdfsStream anomalyRate blocks draws).take n).length ∧
      t.shared.recordsFailed = 0 ∧
      ∀ k line, ((hdfsStream anomalyRate blocks draws).take n)[k]? = some line →
        ∃ j event blk d r, (hdfsTaken anomalyRate blocks draws)[k]? = some (j,event,blk) ∧
          draws[k]? = some d ∧ r ∈ t.shared.stored ∧ r.id = k ∧
          ReadBack (midnight hdfsBase + hdfsSeconds d*1000000) (100+k) event blk d r := by
  obtain ⟨n,hn,hcount⟩ := writeFrom_take total late 0 (hdfsStream anomalyRate blocks draws)
  have hlines : ∀ l ∈ (hdfsStream anomalyRate blocks draws).take n, IsLine l :=
    fun l hl => hdfsStream_isLine (List.mem_of_mem_take hl)
  have hstream := stream_written path hsuffix hlines ⟨hfile.1,hfile.2.trans (hn ▸ rfl)⟩
  refine ⟨n,hcount,hstream,?_⟩
  rw [hstream] at hrun
  dsimp only at hrun
  have hstateless : Stateless (hdfsFront (σ := σ) chars id patterns) :=
    hdfsFront_stateless chars id patterns
  obtain ⟨hinv,hderived⟩ := run_derived hnames hstateless hrun
  obtain ⟨hstored,hprocessed,htotal⟩ :=
    returned_stored hinv hret hstateless hderived.fates hsaves
  rw [sequential_stateless hstateless] at hstored hprocessed
  obtain ⟨hall,hrecords⟩ := survivors_lines chars id patterns cfg w (List.take_prefix n
    (hdfsStream anomalyRate blocks draws))
  have hall : t.shared.recordsProcessed = _ := hprocessed.trans (congrArg Nat.cast hall)
  have htotal : t.shared.recordsProcessed + t.shared.recordsFailed = _ := htotal
  rw [List.length_map] at htotal
  refine ⟨hall,by omega,fun k line hk => ?_⟩
  obtain ⟨j,event,blk,d,r,htaken,hdraw,hmem,hid,hread⟩ := hrecords k line hk
  exact ⟨j,event,blk,d,r,htaken,hdraw,hstored.mem_iff.mpr hmem,hid,hread⟩

end

/-- One normal block. -/
def sampleBlocks : List BlockDraw := [⟨7,1/2,0,0,0⟩]

def sampleDraws : List LineDraw := [⟨0,59,1,2,3,4,5,6⟩,⟨0,86400,6,5,4,3,2,1⟩,⟨0,1,1,1,1,1,1,1⟩]

/-- The first two lines of the block. -/
def sampleContent : List UInt8 :=
  encode (writeStream (some 2) (fun _ => false) (hdfsStream (1/10) sampleBlocks sampleDraws))

def sampleExecutor : Executor.Config :=
  { turnedExecutor with stageNames := ["parse:hdfs","validate:schema","enrich:template_match"] }

def sampleLine : List Label :=
  [.producer,.producer,.consumer 0 .get,.consumer 0 (.stage (.error (.other "" ""))),
    .consumer 0 (.stage (.error (.other "" ""))),.consumer 0 (.stage (.error (.other "" ""))),
    .consumer 0 .buffer]

def sampleSchedule : List Label := sampleLine ++ sampleLine ++
  [.producer,.main .advance,.main .advance,.cancelled 0 false,.flusher .tick,.flusher .swap,
    .flusher (.saved .stored),.main .advance,.main .advance]

def sampleRun : Option (State × Unit) :=
  run (drivenStep sampleExecutor (hdfsFront .ascii 0 [])) (initial sampleExecutor
    ((FileLogSource.stream utf8 FileLogSource.sampleFiles "synth.log" ".log"
      sampleContent).yielded.map String.ofList),()) sampleSchedule

theorem generated_run_sample : ∃ t, sampleRun = some (t,()) ∧
    FileLogSource.stream utf8 FileLogSource.sampleFiles "synth.log" ".log" sampleContent =
      ⟨(hdfsStream (1/10) sampleBlocks sampleDraws).take 2,none⟩ ∧
    t.shared.recordsProcessed = ((hdfsStream (1/10) sampleBlocks sampleDraws).take 2).length ∧
    t.shared.recordsFailed = 0 := by
  have hret : sampleRun.map (fun x => (x.1.main,x.1.shared.saves.map SaveCall.outcome)) =
      some (.returned,[.stored]) := by
    decide +kernel
  obtain ⟨⟨t,u⟩,ht,hmap⟩ := Option.map_eq_some_iff.mp hret
  obtain ⟨hmain,houtcomes⟩ := Prod.mk.inj hmap
  have hsaves : ∀ c ∈ t.shared.saves, c.outcome = .stored := by
    intro c hc
    have hmem := List.mem_map_of_mem (f := SaveCall.outcome) hc
    simpa [houtcomes] using hmem
  obtain ⟨n,hn,hstream,hprocessed,hfailed,_⟩ := generated_run .ascii 0 [] sampleExecutor () ()
    (1/10) sampleBlocks sampleDraws (some 2) (fun _ => false) FileLogSource.sampleFiles "synth.log"
    ".log" (by decide) sampleContent sampleSchedule t ⟨rfl,List.append_nil _⟩ rfl ht hmain hsaves
  obtain rfl := hn 2 rfl fun _ => rfl
  exact ⟨t,ht,hstream,hprocessed,hfailed⟩

end PipelineX.SyntheticFiles
