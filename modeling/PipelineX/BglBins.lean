import PipelineX.BglClock
import Mathlib.Algebra.Order.Group.Int
import Mathlib.Tactic.Ring
import Mathlib.Tactic.Linarith

/-!
# When the bins are even

Cutting the minute, or the hour, at the multiples of a width is cutting time at
them exactly when the width divides the minute, or the hour.
-/

set_option autoImplicit false

namespace PipelineX.BglEvaluation
open PipelineX.Records PipelineX.Parsers

/-- A remainder cut at the multiples of a divisor. -/
theorem cut_of_dvd {n d : ℤ} (h : d ∣ n) (x : ℤ) : x-x%n+x%n/d*d = x/d*d := by
  obtain ⟨j,rfl⟩ := h
  by_cases hd : d = 0
  · simp [hd]
  · have hx : x/d = j*(x/(d*j))+x%(d*j)/d := by
      conv_lhs => rw [← Int.mul_ediv_add_emod x (d*j), mul_assoc, Int.mul_comm d]
      rw [Int.add_ediv_of_dvd_left ⟨j*(x/(d*j)),by ring⟩, Int.mul_ediv_cancel _ hd]
    have hmod := Int.mul_ediv_add_emod x (d*j)
    rw [hx]
    linarith [mul_comm d (j*(x/(d*j)))]

/-- Where the quotient is the same on both sides of a number, that is no
multiple. -/
theorem ediv_pred {w n : ℤ} (hw : 1 ≤ w) (h : ¬w ∣ n) : (n-1)/w = n/w := by
  have hmod : n%w ≠ 0 := fun hz => h (Int.dvd_of_emod_eq_zero hz)
  have hpos := Int.emod_nonneg n (show w ≠ 0 by omega)
  have hlt := Int.emod_lt_of_pos n (show 0 < w by omega)
  have hn := Int.mul_ediv_add_emod n w
  have hsplit : n-1 = (n%w-1)+w*(n/w) := by omega
  rw [hsplit, Int.add_mul_ediv_left _ _ (show w ≠ 0 by omega),
    Int.ediv_eq_zero_of_lt (by omega) (by omega), zero_add]

/-- The start of a bin in seconds, for a width below a minute. -/
theorem window_short {w : ℤ} (hw : 1 ≤ w) (hshort : w < 60) (ts : Datetime) :
    window w ts = (ts/1000000-ts/1000000%60+ts/1000000%60/w*w)*1000000 := by
  have hmicro : (ts+((second ts)/w*w-second ts)*1000000)%1000000 = ts%1000000 :=
    Int.add_mul_emod_self_right _ _ _
  rw [window, if_neg (by omega), Int.fdiv_eq_ediv_of_nonneg _ (by omega), replaceMicrosecond,
    replaceSecond, microsecond, hmicro, second]
  have := Int.mul_ediv_add_emod ts 1000000
  linarith

theorem window_long {w : ℤ} (hlong : 60 ≤ w) (ts : Datetime) : window w ts =
    (ts/1000000-ts/1000000%3600+ts/1000000/60%60/(w/60)*(w/60)*60)*1000000 := by
  have hnonneg : 0 ≤ second ts := Int.emod_nonneg _ (by decide)
  have hlt : second ts < 60 := Int.emod_lt_of_pos _ (by decide)
  have hzero : (second ts).fdiv w*w = 0 := by
    rw [Int.fdiv_eq_ediv_of_nonneg _ (by omega), Int.ediv_eq_zero_of_lt hnonneg (by omega),
      zero_mul]
  have hminute : minute ts = ts/1000000/60%60 := by
    rw [minute, Int.ediv_ediv_of_nonneg (by decide)]
    rfl
  -- the start of the minute
  have hstart : replaceMicrosecond (replaceSecond ts 0) 0 = ts/1000000/60*60000000 := by
    have hmicro : (ts+(0-second ts)*1000000)%1000000 = ts%1000000 :=
      Int.add_mul_emod_self_right _ _ _
    rw [replaceMicrosecond, replaceSecond, microsecond, hmicro, second]
    change @Eq ℤ _ _
    omega
  have hkept : replaceSecond (ts/1000000/60*60000000) 0 = ts/1000000/60*60000000 := by
    rw [replaceSecond, second]
    change @Eq ℤ _ _
    omega
  have hmin : minute (ts/1000000/60*60000000) = ts/1000000/60%60 := by
    rw [minute, Int.mul_ediv_cancel _ (by decide)]
  rw [window, if_pos hlong, hzero, hstart, hkept, replaceMinute, hmin, hminute,
    Int.fdiv_eq_ediv_of_nonneg w (by decide), Int.fdiv_eq_ediv_of_nonneg _ (by omega)]
  generalize ts/1000000/60%60/(w/60)*(w/60) = b
  change @Eq ℤ _ _
  omega

/-- The widths that cut the minute or the hour into equal parts. -/
def Divides (w : ℤ) : Prop := w ∣ 60 ∨ (60 ∣ w ∧ w ∣ 3600)

theorem window_of_divides {w : ℤ} (hw : 1 ≤ w) (h : Divides w) (ts : Datetime) :
    window w ts = ts/1000000/w*w*1000000 := by
  rcases h with hminute | ⟨⟨k,rfl⟩,hhour⟩
  · by_cases hshort : w < 60
    · rw [window_short hw hshort, cut_of_dvd hminute]
    · have hle := Int.le_of_dvd (by decide) hminute
      obtain rfl : w = 60 := by omega
      rw [window_long le_rfl]
      change @Eq ℤ _ _
      omega
  · have hk : k ∣ 60 := Int.dvd_of_mul_dvd_mul_left (show (60:ℤ) ≠ 0 by decide) hhour
    have hcut := cut_of_dvd hk (ts/1000000/60)
    rw [window_long (by omega), Int.mul_ediv_cancel_left k (by decide),
      ← Int.ediv_ediv_of_nonneg (by decide)]
    have hassoc (q : ℤ) : q*(60*k) = 60*(q*k) := by ring
    rw [hassoc]
    generalize ts/1000000/60%60/k*k = b at hcut ⊢
    generalize ts/1000000/60/k*k = c at hcut ⊢
    change @Eq ℤ _ _
    omega

theorem seconds_back (s : ℤ) : s*1000000/1000000 = s := Int.mul_ediv_cancel _ (by decide)

/-- The last second of a minute and the first of the next. -/
theorem window_minute_edge {w : ℤ} (hw : 1 ≤ w) (hshort : w < 60) :
    window w (59*1000000) ≠ window w (60*1000000) := by
  have hle := Int.ediv_mul_le 59 (show w ≠ 0 by omega)
  rw [window_short hw hshort, window_short hw hshort, seconds_back, seconds_back]
  norm_num
  intro heq
  change @Eq ℤ _ _ at heq
  omega

/-- The last second of an hour and the first of the next. -/
theorem window_hour_edge {w : ℤ} (hlong : 60 ≤ w) :
    window w (3599*1000000) ≠ window w (3600*1000000) := by
  have hle := Int.ediv_mul_le 59 (show w/60 ≠ 0 by omega)
  rw [window_long hlong, window_long hlong, seconds_back, seconds_back]
  norm_num
  intro heq
  change @Eq ℤ _ _ at heq
  omega

/-- The start of an hour and of the last minute that the width reaches. -/
theorem window_last_minute {w k : ℤ} (hlong : 60 ≤ w) (hk : k = w/60) (hhour : k < 60) :
    window w (0*1000000) ≠ window w (k*60*1000000) := by
  have hfirst : (0:ℤ)/60%60/(w/60)*(w/60)*60 = 0 := by simp
  have hself : k/(w/60)*(w/60) = k := by rw [hk, Int.ediv_self (by omega), one_mul]
  have hminute : k*60/60%60 = k := by omega
  have hwhole : k*60%3600 = k*60 := by omega
  rw [window_long hlong, window_long hlong, seconds_back, seconds_back, hfirst, hminute, hwhole,
    hself]
  intro heq
  change @Eq ℤ _ _ at heq
  omega

/-- A width that divides neither the minute nor the hour puts two moments of
one interval into two bins. -/
theorem window_uneven {w : ℤ} (hw : 1 ≤ w) (h : ¬Divides w) :
    ∃ hour minute second hour' minute' second' : ℕ,
      (hour ≤ 23 ∧ minute ≤ 59 ∧ second ≤ 59) ∧ (hour' ≤ 23 ∧ minute' ≤ 59 ∧ second' ≤ 59) ∧
      ((hour*60+minute)*60+second : ℤ)/w = ((hour'*60+minute')*60+second' : ℤ)/w ∧
      window w (((hour*60+minute)*60+second : ℤ)*1000000) ≠
        window w (((hour'*60+minute')*60+second' : ℤ)*1000000) := by
  rw [Divides, not_or] at h
  by_cases hshort : w < 60
  · exact ⟨0,0,59,0,1,0,by decide,by decide,ediv_pred hw h.1,window_minute_edge hw hshort⟩
  · by_cases hhour : w ∣ 3600
    · have hnot : ¬60 ∣ w := fun hdvd => h.2 ⟨hdvd,hhour⟩
      have hle := Int.le_of_dvd (by decide) hhour
      obtain ⟨k,hk⟩ : ∃ k : ℕ, (k : ℤ) = w/60 := ⟨(w/60).toNat,by omega⟩
      have huneven := window_last_minute (by omega) hk (by omega)
      refine ⟨0,0,0,0,k,0,by decide,by omega,?_,by simpa using huneven⟩
      rw [Int.ediv_eq_zero_of_lt (by simp) (by omega), Int.ediv_eq_zero_of_lt (by omega) (by omega)]
    · exact ⟨0,59,59,1,0,0,by decide,by decide,ediv_pred hw hhour,window_hour_edge (by omega)⟩

section
variable {chars : CharTable} {ids : ℕ → UUID} {w : ℤ}

/-- A record of the parser has a timestamp and a label. -/
theorem parse_stamped {id : UUID} {raw : String} {r : LogRecord}
    (h : BglParser.parse chars id raw = .ok r) : ∃ ts label, r.timestamp = some ts ∧
      r.enrichment.get? "bgl_label" = some (.str label) := by
  obtain ⟨hlen,_,_,_,ts,_,_,_,_,hholds,_⟩ := BglFormat.parse_ok h
  obtain ⟨v,hv⟩ : ∃ v, (Words.words chars.space raw.toList)[0]? = some v :=
    ⟨_,List.getElem?_eq_getElem (by omega)⟩
  refine ⟨ts,String.ofList v,hholds.timestamp,?_⟩
  rw [hholds.label, hv]
  rfl

/-- What a line does to the marks. -/
def mark (w : ℤ) (labels : OrderedDict Datetime Bool) (p : Datetime × String) :
    OrderedDict Datetime Bool :=
  if p.2 ≠ "-" then labels.insert (window w p.1) true else labels

theorem aggregateLine_eq (s : Bins) (line : List Char × ℕ) :
    (parsedLine chars ids line = none →
      (aggregateLine chars ids w s line).bins = s.bins ∧
      (aggregateLine chars ids w s line).labels = s.labels) ∧
    ∀ p, parsedLine chars ids line = some p →
      (aggregateLine chars ids w s line).bins = Counter.add s.bins (window w p.1) ∧
      (aggregateLine chars ids w s line).labels = mark w s.labels p := by
  by_cases hraw : TextFile.rstripNewline line.1 = []
  · simp [parsedLine, aggregateLine, hraw]
  · cases hparse : BglParser.parse chars (ids line.2)
        (String.ofList (TextFile.rstripNewline line.1)) with
    | error e => simp [parsedLine, aggregateLine, hraw, hparse]
    | ok r =>
      obtain ⟨ts,label,hts,hlabel⟩ := parse_stamped hparse
      have hline : parsedLine chars ids line = some (ts,label) := by
        simp [parsedLine, hraw, hparse, hts, hlabel]
      have hstep : aggregateLine chars ids w s line =
          if label ≠ "-" then
            { s with bins := Counter.add s.bins (window w ts),
                     labels := s.labels.insert (window w ts) true }
          else { s with bins := Counter.add s.bins (window w ts) } := by
        simp [aggregateLine, hraw, hparse, hts, hlabel]
      rw [hline, hstep]
      refine ⟨fun hnone => (by cases hnone),fun p hp => ?_⟩
      obtain rfl := Option.some.inj hp
      by_cases hdash : label = "-"
      · simp [mark, hdash]
      · simp [mark, hdash]

theorem foldl_aggregate (lines : List (List Char × ℕ)) (s : Bins) :
    (lines.foldl (aggregateLine chars ids w) s).bins =
      ((lines.filterMap (parsedLine chars ids)).map (fun p => window w p.1)).foldl Counter.add
        s.bins ∧
    (lines.foldl (aggregateLine chars ids w) s).labels =
      (lines.filterMap (parsedLine chars ids)).foldl (mark w) s.labels := by
  induction lines generalizing s with
  | nil => exact ⟨rfl,rfl⟩
  | cons line lines ih =>
    obtain ⟨hnone,hsome⟩ := @aggregateLine_eq chars ids w s line
    obtain ⟨hbins,hlabels⟩ := ih (aggregateLine chars ids w s line)
    rw [List.foldl_cons, hbins, hlabels]
    cases hline : parsedLine chars ids line with
    | none =>
      rw [(hnone hline).1, (hnone hline).2, List.filterMap_cons_none hline]
      exact ⟨rfl,rfl⟩
    | some p =>
      rw [(hsome p hline).1, (hsome p hline).2, List.filterMap_cons_some hline]
      exact ⟨rfl,rfl⟩

theorem foldl_mark (parsed : List (Datetime × String)) (labels : OrderedDict Datetime Bool)
    (v : Datetime) : ((parsed.foldl (mark w) labels).get? v).getD false = true ↔
      (labels.get? v).getD false = true ∨ ∃ p ∈ parsed, window w p.1 = v ∧ p.2 ≠ "-" := by
  induction parsed generalizing labels with
  | nil => simp
  | cons p parsed ih =>
    have hstep : ((mark w labels p).get? v).getD false = true ↔
        (labels.get? v).getD false = true ∨ (window w p.1 = v ∧ p.2 ≠ "-") := by
      unfold mark
      by_cases hdash : p.2 = "-"
      · simp [hdash]
      · rw [if_pos hdash]
        by_cases hv : window w p.1 = v
        · rw [← hv, OrderedDict.get?_insert_self]
          simp [hdash]
        · rw [OrderedDict.get?_insert_of_ne _ _ (Ne.symm hv)]
          simp [hv]
    rw [List.foldl_cons, ih, hstep, List.exists_mem_cons_iff, or_assoc]

/-- Each line is counted once, in its bin, and the marks are those of the
alerts, whatever the width. -/
theorem aggregate_spec (log : List Char) (maxLines : Option ℤ) :
    let parsed := parsedLines chars ids log maxLines
    let out := aggregate chars ids log w maxLines
    (∀ v, out.bins.get? v = if ∃ p ∈ parsed, window w p.1 = v then
        some (parsed.countP (fun p => window w p.1 = v)) else none) ∧
      (out.bins.items.map Prod.snd).sum = parsed.length ∧
      ∀ v, (out.labels.get? v).getD false = true ↔
        ∃ p ∈ parsed, window w p.1 = v ∧ p.2 ≠ "-" := by
  obtain ⟨hbins,hlabels⟩ := @foldl_aggregate chars ids w (numberedLines log maxLines) {}
  have hcount : (aggregate chars ids log w maxLines).bins =
      Counter.count ((parsedLines chars ids log maxLines).map (fun p => window w p.1)) := hbins
  refine ⟨fun v => ?_,?_,fun v => ?_⟩
  · rw [hcount, Counter.get?_count, List.count, List.countP_map]
    simp only [List.mem_map]
    rfl
  · have hperm := (Counter.mostCommon_perm (aggregate chars ids log w maxLines).bins).map Prod.snd
    rw [← hperm.sum_eq, hcount, (Counter.mostCommon_counts _).sum, List.length_map]
  · have hmarks : (aggregate chars ids log w maxLines).labels =
        (parsedLines chars ids log maxLines).foldl (mark w) .empty := hlabels
    rw [hmarks, foldl_mark]
    simp

end

section
variable (chars : CharTable) (ids : ℕ → UUID)

/-- A log of two lines. -/
theorem clock_log {hour minute second hour' minute' second' : ℕ}
    (h : hour ≤ 23 ∧ minute ≤ 59 ∧ second ≤ 59) (h' : hour' ≤ 23 ∧ minute' ≤ 59 ∧ second' ≤ 59) :
    parsedLines chars ids
        (clockLine hour minute second ++ '\n'::clockLine hour' minute' second') none =
      [(((hour*60+minute)*60+second : ℤ)*1000000,"-"),
        (((hour'*60+minute')*60+second' : ℤ)*1000000,"-")] := by
  obtain ⟨hh,hm,hs⟩ := h
  obtain ⟨hh',hm',hs'⟩ := h'
  have hnewline : ('\n' : Char).toNat < 32 := by decide
  have hreturn : ('\r' : Char).toNat < 32 := by decide
  have htranslate : TextFile.translate
      (clockLine hour minute second ++ '\n'::clockLine hour' minute' second') = _ :=
    TextFile.translate_self (by
      simp [clockLine_notMem hh hm hs hreturn, clockLine_notMem hh' hm' hs' hreturn])
  have hlines : TextFile.lines
      (clockLine hour minute second ++ '\n'::clockLine hour' minute' second') =
      [clockLine hour minute second ++ ['\n'],clockLine hour' minute' second'] := by
    rw [TextFile.lines, htranslate, TextFile.linesFrom_line (clockLine_notMem hh hm hs hnewline),
      TextFile.linesFrom_last (clockLine_notMem hh' hm' hs' hnewline) (clockLine_ne_nil _ _ _)]
    rfl
  have hnumbered : numberedLines
      (clockLine hour minute second ++ '\n'::clockLine hour' minute' second') none =
      [(clockLine hour minute second ++ ['\n'],0),(clockLine hour' minute' second',1)] := by
    rw [numberedLines, hlines]
    rfl
  rw [parsedLines, hnumbered,
    List.filterMap_cons_some (clockLine_parsed chars ids 0 hh hm hs (Or.inr rfl)),
    List.filterMap_cons_some (clockLine_parsed chars ids 1 hh' hm' hs' (Or.inl rfl))]
  rfl

/-- The bins are even for every log when the width cuts the minute into equal
parts, or is a number of minutes that cuts the hour into equal parts. -/
theorem bins_even_iff {windowSeconds : ℤ} (h : 1 ≤ windowSeconds) :
    (∀ log maxLines, BinsEven windowSeconds (parsedLines chars ids log maxLines)
      (aggregate chars ids log windowSeconds maxLines)) ↔ Divides windowSeconds := by
  constructor
  · intro heven
    by_contra hno
    obtain ⟨hour,minute,second,hour',minute',second',hclock,hclock',hquotient,hwindow⟩ :=
      window_uneven h hno
    have hsame := (heven
      (clockLine hour minute second ++ '\n'::clockLine hour' minute' second') none).sameBin
    rw [clock_log chars ids hclock hclock'] at hsame
    have hpair := hsame _ List.mem_cons_self _ (List.mem_cons_of_mem _ List.mem_cons_self)
    rw [Int.mul_ediv_cancel _ (by decide), Int.mul_ediv_cancel _ (by decide)] at hpair
    exact hwindow (hpair.mpr hquotient)
  · intro hdivides log maxLines
    obtain ⟨hcounted,htotal,hlabelled⟩ := @aggregate_spec chars ids windowSeconds log maxLines
    refine ⟨fun p _ q _ => ?_,hcounted,htotal,hlabelled⟩
    rw [window_of_divides h hdivides, window_of_divides h hdivides,
      Int.mul_eq_mul_right_iff (by decide), Int.mul_eq_mul_right_iff (by omega)]

end

theorem bins_even_minute : (∀ log maxLines,
    BinsEven 60 (parsedLines .ascii (fun _ => 0) log maxLines)
      (aggregate .ascii (fun _ => 0) log 60 maxLines)) ↔ Divides 60 :=
  bins_even_iff .ascii (fun _ => 0) (by decide)

/-- Of width seven, the last second of a minute and the first of the next are
in one interval. -/
theorem seven_seconds_uneven : ¬BinsEven 7
    (parsedLines .ascii (fun _ => 0) (clockLine 0 0 59 ++ '\n'::clockLine 0 1 0) none)
    (aggregate .ascii (fun _ => 0) (clockLine 0 0 59 ++ '\n'::clockLine 0 1 0) 7 none) := by
  intro h
  have hsame := h.sameBin
  rw [clock_log .ascii (fun _ => 0) (by decide) (by decide)] at hsame
  have hpair := hsame _ List.mem_cons_self _ (List.mem_cons_of_mem _ List.mem_cons_self)
  exact absurd hpair (by decide)

end PipelineX.BglEvaluation
