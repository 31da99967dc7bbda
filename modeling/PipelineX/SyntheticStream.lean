import PipelineX.SyntheticLogs
import PipelineX.Interleaving
import Mathlib.Algebra.Order.Ring.Rat

/-!
# The stream of `generate_synthetic_logs.py`

A sequence of events for every block, some of them changed, and the lines of all
blocks interleaved. Every line is read by the parser as it was meant, and the
lines of a block spell its sequence.
-/

set_option autoImplicit false

namespace PipelineX.SyntheticLogs
open PipelineX.Records PipelineX.Parsers PipelineX.CivilDate PipelineX.Interleaving

/-- `_HDFS_NORMAL_LIFECYCLE`. -/
def hdfsNormalLifecycle : List HdfsEvent := [.e22,.e5,.e26,.e11,.e9,.e21]

/-- `_HDFS_EXCEPTION_EVENTS`. -/
def hdfsExceptionEvents : List HdfsEvent := [.e4,.e10,.e14]

inductive Strategy where
  | truncate
  | reorder
  | inject
  deriving DecidableEq, Repr

/-- What is drawn for a block. -/
structure BlockDraw where
  blk : ℕ
  random : ℚ
  strategy : ℕ
  position : ℕ
  event : ℕ
  deriving DecidableEq, Repr

/-- The number in `_random_block_id`. -/
def randomBlockId (b : BlockDraw) : ℤ := randint 0 (2^63) b.blk - 2^62

def swapNext (events : List HdfsEvent) (i : ℕ) : List HdfsEvent :=
  match events[i]?, events[i+1]? with
  | some e, some e' => (events.set i e').set (i+1) e
  | _, _ => events

/-- `_inject_hdfs_anomaly`. -/
def injectHdfsAnomaly (events : List HdfsEvent) (b : BlockDraw) : List HdfsEvent :=
  let strategy := choice [.truncate,.reorder,.inject] b.strategy
  if strategy = some Strategy.truncate ∧ 3 ≤ events.length then
    events.take (randint 2 (events.length-1) b.position)
  else if strategy = some .reorder ∧ 3 ≤ events.length then
    swapNext events (randint 0 (events.length-2) b.position)
  else
    match choice hdfsExceptionEvents b.event with
    | some e => events.insertIdx (randint 1 (max 1 (events.length-1)) b.position) e
    | none => events

/-- The events of a block. -/
def blockEvents (anomalyRate : ℚ) (b : BlockDraw) : List HdfsEvent :=
  if b.random < anomalyRate then injectHdfsAnomaly hdfsNormalLifecycle b else hdfsNormalLifecycle

def sequences (anomalyRate : ℚ) (blocks : List BlockDraw) : List (List (HdfsEvent × ℤ)) :=
  blocks.map (fun b => (blockEvents anomalyRate b).map (fun e => (e,randomBlockId b)))

/-- The loop of `_hdfs_stream`, as far as lines are asked for. -/
def hdfsLoop (sequences : List (List (HdfsEvent × ℤ))) :
    List ℕ → ℕ → List LineDraw → List (List Char)
  | _, _, [] => []
  | cursors, pid, d::draws =>
    match advance sequences cursors d.pick with
    | none => []
    | some ((_,event,blk),cursors') =>
      formatHdfsLine (hdfsTs d) pid event blk d :: hdfsLoop sequences cursors' (pid+1) draws

def hdfsStream (anomalyRate : ℚ) (blocks : List BlockDraw) (draws : List LineDraw) :
    List (List Char) :=
  hdfsLoop (sequences anomalyRate blocks) (List.replicate blocks.length 0) 100 draws

/-- For which block and event each line is. -/
def hdfsTaken (anomalyRate : ℚ) (blocks : List BlockDraw) (draws : List LineDraw) :
    List (ℕ × HdfsEvent × ℤ) :=
  (interleave (sequences anomalyRate blocks) (List.replicate blocks.length 0)
    (draws.map LineDraw.pick)).1

/-- How many lines the blocks have. -/
def lineCount (anomalyRate : ℚ) (blocks : List BlockDraw) : ℕ :=
  (blocks.map (fun b => (blockEvents anomalyRate b).length)).sum

theorem swapNext_ne (i : ℕ) (hi : i ≤ 4) : swapNext hdfsNormalLifecycle i ≠ hdfsNormalLifecycle := by
  revert i
  decide

theorem injectHdfsAnomaly_ne (b : BlockDraw) :
    injectHdfsAnomaly hdfsNormalLifecycle b ≠ hdfsNormalLifecycle := by
  have hlen : hdfsNormalLifecycle.length = 6 := rfl
  intro h
  unfold injectHdfsAnomaly at h
  dsimp only at h
  split at h
  · have hcut := (randint_mem (show 2 ≤ 6-1 by decide) b.position).2
    have := congrArg List.length h
    rw [List.length_take, hlen] at this
    omega
  · split at h
    · exact swapNext_ne _ (randint_mem (Nat.zero_le 4) b.position).2 h
    · split at h
      · have hat := (randint_mem (show 1 ≤ max 1 (6-1) by decide) b.position).2
        have := congrArg List.length h
        rw [List.length_insertIdx_of_le_length (by rw [hlen]; exact hat.trans (by decide))] at this
        omega
      · next hnone => exact absurd (choice_eq_none.mp hnone) (by decide)

/-- A block is normal when no anomaly was drawn for it, and only then. -/
theorem blockEvents_normal {anomalyRate : ℚ} {b : BlockDraw} :
    blockEvents anomalyRate b = hdfsNormalLifecycle ↔ anomalyRate ≤ b.random := by
  unfold blockEvents
  split
  · next h => exact iff_of_false (injectHdfsAnomaly_ne b) (not_le.mpr h)
  · next h => exact iff_of_true rfl (not_lt.mp h)

/-- Each line is made of what was taken for it and the draw for it. -/
theorem hdfsLoop_eq (sequences : List (List (HdfsEvent × ℤ))) (cursors : List ℕ) (pid : ℕ)
    (draws : List LineDraw) : hdfsLoop sequences cursors pid draws =
      (((interleave sequences cursors (draws.map LineDraw.pick)).1.zip draws).zipIdx pid).map
        (fun x => formatHdfsLine (hdfsTs x.1.2) x.2 x.1.1.2.1 x.1.1.2.2 x.1.2) := by
  induction draws generalizing cursors pid with
  | nil => simp [hdfsLoop]
  | cons d draws ih =>
    rw [hdfsLoop, List.map_cons, interleave]
    cases advance sequences cursors d.pick with
    | none => rfl
    | some p => simp [ih]

theorem left_lineCount (anomalyRate : ℚ) (blocks : List BlockDraw) :
    left (sequences anomalyRate blocks) (List.replicate blocks.length 0) =
      lineCount anomalyRate blocks := by
  have hlen : (sequences anomalyRate blocks).length = blocks.length := List.length_map _
  have hstart := left_start (sequences anomalyRate blocks)
  rw [hlen] at hstart
  rw [hstart, lineCount, sequences, List.map_map]
  congr 2
  funext b
  exact List.length_map _

theorem hdfsTaken_length (anomalyRate : ℚ) (blocks : List BlockDraw) (draws : List LineDraw) :
    (hdfsTaken anomalyRate blocks draws).length =
      min draws.length (lineCount anomalyRate blocks) := by
  rw [hdfsTaken, interleave_length, left_lineCount, List.length_map]

theorem sequences_getD {anomalyRate : ℚ} {blocks : List BlockDraw} {j : ℕ} {b : BlockDraw}
    (hb : blocks[j]? = some b) : (sequences anomalyRate blocks).getD j [] =
      (blockEvents anomalyRate b).map (fun e => (e,randomBlockId b)) := by
  simp [sequences, hb]

/-- What is taken from a block is the first of its events, with its id. -/
theorem hdfsTaken_share (anomalyRate : ℚ) {blocks : List BlockDraw} (draws : List LineDraw) {j : ℕ}
    {b : BlockDraw} (hb : blocks[j]? = some b) :
    ∃ n, share (hdfsTaken anomalyRate blocks draws) j =
        ((blockEvents anomalyRate b).take n).map (fun e => (e,randomBlockId b)) ∧
      (lineCount anomalyRate blocks ≤ draws.length →
        (blockEvents anomalyRate b).take n = blockEvents anomalyRate b) := by
  have hj : j < (List.replicate blocks.length 0).length := by
    rw [List.length_replicate]
    exact (List.getElem?_eq_some_iff.mp hb).1
  have hshare := interleave_share (sequences anomalyRate blocks)
    (List.replicate blocks.length 0) (draws.map LineDraw.pick) j
  rw [sequences_getD hb, start_getD, List.take_zero, List.nil_append,
    ← List.map_take] at hshare
  refine ⟨_,hshare,fun hmany => ?_⟩
  have hpicks : left (sequences anomalyRate blocks) (List.replicate blocks.length 0) ≤
      (draws.map LineDraw.pick).length := by
    rw [left_lineCount, List.length_map]
    exact hmany
  have hwhole := interleave_complete (sequences anomalyRate blocks) hpicks hj
  rw [sequences_getD hb, ← List.map_take] at hwhole
  exact List.map_injective_iff.mpr (fun e e' h => congrArg Prod.fst h) hwhole

theorem hdfsStream_eq (anomalyRate : ℚ) (blocks : List BlockDraw) (draws : List LineDraw) :
    hdfsStream anomalyRate blocks draws = (((hdfsTaken anomalyRate blocks draws).zip draws).zipIdx
      100).map (fun x => formatHdfsLine (hdfsTs x.1.2) x.2 x.1.1.2.1 x.1.1.2.2 x.1.2) :=
  hdfsLoop_eq _ _ _ _

theorem hdfsStream_length (anomalyRate : ℚ) (blocks : List BlockDraw) (draws : List LineDraw) :
    (hdfsStream anomalyRate blocks draws).length =
      min draws.length (lineCount anomalyRate blocks) := by
  rw [hdfsStream_eq, List.length_map, List.length_zipIdx, List.length_zip, hdfsTaken_length]
  omega

/-- A line, and what it was made of. -/
theorem hdfsStream_line {anomalyRate : ℚ} {blocks : List BlockDraw} {draws : List LineDraw} {k : ℕ}
    {line : List Char} (h : (hdfsStream anomalyRate blocks draws)[k]? = some line) :
    ∃ j event blk d, (hdfsTaken anomalyRate blocks draws)[k]? = some (j,event,blk) ∧
      draws[k]? = some d ∧ line = formatHdfsLine (hdfsTs d) (100+k) event blk d := by
  rw [hdfsStream_eq, List.getElem?_map, Option.map_eq_some_iff] at h
  obtain ⟨⟨⟨⟨j,event,blk⟩,d⟩,pid⟩,hx,rfl⟩ := h
  rw [List.getElem?_zipIdx, Option.map_eq_some_iff] at hx
  obtain ⟨y,hy,hpair⟩ := hx
  cases hpair
  obtain ⟨htaken,hdraw⟩ := List.getElem?_zip_eq_some.mp hy
  exact ⟨j,event,blk,d,htaken,hdraw,rfl⟩

/-- Every line of the generator is read by the HDFS parser as it was meant. The
process ids count up. What is found in the lines of a block is its sequence as
far as the stream goes, and all of it when there is a draw for every line: the
normal lifecycle unless an anomaly was drawn. -/
theorem hdfsStream_recovered (chars : CharTable) (id : ℕ → UUID) (anomalyRate : ℚ)
    (blocks : List BlockDraw) (draws : List LineDraw) :
    (hdfsStream anomalyRate blocks draws).length =
      min draws.length (lineCount anomalyRate blocks) ∧
    ∃ taken : List (ℕ × HdfsEvent × ℤ),
      taken.length = (hdfsStream anomalyRate blocks draws).length ∧
      (∀ k line, (hdfsStream anomalyRate blocks draws)[k]? = some line →
        ∃ j event blk d r, taken[k]? = some (j,event,blk) ∧ draws[k]? = some d ∧
          HdfsParser.parse chars (id k) (String.ofList line) = .ok r ∧
          ReadBack (midnight hdfsBase + hdfsSeconds d*1000000) (100+k) event blk d r) ∧
      ∀ j b, blocks[j]? = some b →
        (∃ n, share taken j =
            ((blockEvents anomalyRate b).take n).map (fun e => (e,randomBlockId b)) ∧
          (lineCount anomalyRate blocks ≤ draws.length →
            (blockEvents anomalyRate b).take n = blockEvents anomalyRate b)) ∧
        (blockEvents anomalyRate b = hdfsNormalLifecycle ↔ anomalyRate ≤ b.random) := by
  refine ⟨hdfsStream_length anomalyRate blocks draws,hdfsTaken anomalyRate blocks draws,?_,?_,?_⟩
  · rw [hdfsTaken_length, hdfsStream_length]
  · intro k line hline
    obtain ⟨j,event,blk,d,htaken,hdraw,rfl⟩ := hdfsStream_line hline
    obtain ⟨r,hr,hread⟩ :=
      parse_formatHdfsLine chars (id k) (hdfsTs_year d) (100+k) event blk d
    rw [hdfsTs_instant] at hread
    exact ⟨j,event,blk,d,r,htaken,hdraw,hr,hread⟩
  · intro j b hb
    exact ⟨hdfsTaken_share anomalyRate draws hb,blockEvents_normal⟩

end PipelineX.SyntheticLogs
