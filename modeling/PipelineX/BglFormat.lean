import PipelineX.BglStamp

/-!
# The format of a BGL line

Which texts the parser takes, what it reads from them, and that fields put
together with blanks are read back.
-/

set_option autoImplicit false

namespace PipelineX.BglFormat
open PipelineX.Records PipelineX.Strptime PipelineX.Words PipelineX.Parsers

/-- A field as a value of the record. -/
def str (w : List Char) : Value := .str (String.ofList w)

/-- The record has the words as its fields, `m` as its message and `t` as its
timestamp. -/
structure Holds (ws : List (List Char)) (m : List Char) (t : Datetime) (r : LogRecord) : Prop where
  label : r.enrichment.get? "bgl_label" = ws[0]?.map str
  node : r.enrichment.get? "node" = ws[3]?.map str
  timestamp : r.timestamp = some t
  nodeRepeat : r.rawPayload.get? "node_repeat" = ws[5]?.map str
  logType : r.rawPayload.get? "type" = ws[6]?.map str
  source : some r.source = ws[7]?.map String.ofList
  levelRaw : r.rawPayload.get? "level_raw" = ws[8]?.map str
  message : r.message = String.ofList m

/-- What the record says of a level. -/
structure Graded (level : List Char) (r : LogRecord) : Prop where
  severity : r.severity = (BglParser.levelMap.lookup (String.ofList level)).getD .info
  parseWarning : r.enrichment.get? "parse_warning" =
    if (BglParser.levelMap.lookup (String.ofList level)).isNone then
      some (.str ("unknown level: " ++ String.ofList level))
    else none

section
variable {label epoch date node time nodeRepeat logType component level content : List Char}

theorem record_get? (id : UUID) (raw : String) (t : Datetime) {key : String}
    (h : key ≠ "parse_warning") :
    (BglParser.record id raw t label node nodeRepeat logType component level
      content).enrichment.get? key =
    (BglParser.bare id raw t label node nodeRepeat logType component level
      content).enrichment.get? key := by
  unfold BglParser.record
  dsimp only
  split
  · exact OrderedDict.get?_insert_of_ne _ _ h
  · rfl

theorem record_rest (id : UUID) (raw : String) (t : Datetime) :
    ∃ enrichment,
      BglParser.record id raw t label node nodeRepeat logType component level content =
        { BglParser.bare id raw t label node nodeRepeat logType component level content with
          enrichment := enrichment } := by
  unfold BglParser.record
  dsimp only
  split
  · exact ⟨_,rfl⟩
  · exact ⟨_,rfl⟩

theorem record_holds (id : UUID) (raw : String) (t : Datetime) :
    Holds [label,epoch,date,node,time,nodeRepeat,logType,component,level] content t
      (BglParser.record id raw t label node nodeRepeat logType component level content) := by
  obtain ⟨enrichment,hrecord⟩ := record_rest id raw t
  constructor
  · rw [record_get? id raw t (by decide)]
    exact (OrderedDict.get?_insert_of_ne _ _ (by decide)).trans (OrderedDict.get?_insert_self _ _ _)
  · rw [record_get? id raw t (by decide)]
    exact OrderedDict.get?_insert_self _ _ _
  all_goals
    rw [hrecord]
    rfl

theorem record_graded (id : UUID) (raw : String) (t : Datetime) : Graded level
    (BglParser.record id raw t label node nodeRepeat logType component level content) := by
  obtain ⟨enrichment,hrecord⟩ := record_rest id raw t
  constructor
  · rw [hrecord]
    rfl
  · unfold BglParser.record
    dsimp only
    split
    · exact OrderedDict.get?_insert_self _ _ _
    · exact (OrderedDict.get?_insert_of_ne _ _ (by decide)).trans
        (OrderedDict.get?_insert_of_ne _ _ (by decide))

end

theorem Holds.of_take {ws : List (List Char)} {m : List Char} {t : Datetime} {r : LogRecord}
    (h : Holds (ws.take 9) m t r) : Holds ws m t r := by
  have htake (i : ℕ) (hi : i < 9) : (ws.take 9)[i]? = ws[i]? := List.getElem?_take_of_lt hi
  constructor
  · exact h.label.trans (by rw [htake 0 (by decide)])
  · exact h.node.trans (by rw [htake 3 (by decide)])
  · exact h.timestamp
  · exact h.nodeRepeat.trans (by rw [htake 5 (by decide)])
  · exact h.logType.trans (by rw [htake 6 (by decide)])
  · exact h.source.trans (by rw [htake 7 (by decide)])
  · exact h.levelRaw.trans (by rw [htake 8 (by decide)])
  · exact h.message

section
variable {chars : CharTable} {raw : String} {ws : List (List Char)} {m : List Char}

/-- What becomes of nine words and the text after them. -/
theorem parse_fields (id : UUID) (hlen : ws.length = 9)
    (hsplit : split chars.space 9 raw.toList = ws ++ [m]) :
    ∃ time level, ws[4]? = some time ∧ ws[8]? = some level ∧
      (∀ t, strptime chars time BglParser.timeFormat = .ok t →
        ∃ r, BglParser.parse chars id raw = .ok r ∧ Holds ws m t r ∧ Graded level r) ∧
      ∀ e, strptime chars time BglParser.timeFormat = .error e →
        ∃ message, BglParser.parse chars id raw = .error (.parserError message) := by
  match ws, hlen with
  | [label,epoch,date,node,time,nodeRepeat,logType,component,level], _ =>
    refine ⟨time,level,rfl,rfl,fun t ht => ?_,fun e he => ?_⟩
    · refine ⟨_,?_,record_holds id raw t,record_graded id raw t⟩
      rw [BglParser.parse, hsplit]
      dsimp only [List.cons_append, List.nil_append]
      rw [ht]
    · rw [BglParser.parse, hsplit]
      dsimp only [List.cons_append, List.nil_append]
      rw [he]
      exact ⟨_,rfl⟩

/-- The parser's verdict on a line of at least ten words. -/
theorem parse_long (id : UUID) (h : 10 ≤ (words chars.space raw.toList).length) :
    ∃ m time level, From chars.space 9 raw.toList m ∧
      (words chars.space raw.toList)[4]? = some time ∧
      (words chars.space raw.toList)[8]? = some level ∧
      (∀ t, IsStamp chars time t → ∃ r, BglParser.parse chars id raw = .ok r ∧
        Holds (words chars.space raw.toList) m t r ∧ Graded level r) ∧
      ((¬ ∃ t, IsStamp chars time t) →
        ∃ message, BglParser.parse chars id raw = .error (.parserError message)) := by
  obtain ⟨m,hfrom,hsplit⟩ := split_many 9 h
  have hlen : ((words chars.space raw.toList).take 9).length = 9 := by
    rw [List.length_take]
    omega
  obtain ⟨time,level,htime,hlevel,haccepts,hrefuses⟩ := parse_fields id hlen hsplit
  rw [List.getElem?_take_of_lt (by decide)] at htime hlevel
  refine ⟨m,time,level,hfrom,htime,hlevel,fun t ht => ?_,fun hno => ?_⟩
  · obtain ⟨r,hr,hholds,hgraded⟩ := haccepts t (strptime_stamp.mpr ht)
    exact ⟨r,hr,hholds.of_take,hgraded⟩
  · cases htime' : strptime chars time BglParser.timeFormat with
    | error e => exact hrefuses e htime'
    | ok t => exact absurd ⟨t,strptime_stamp.mp htime'⟩ hno

theorem parse_short (id : UUID) (h : (words chars.space raw.toList).length < 10) :
    ∃ message, BglParser.parse chars id raw = .error (.parserError message) := by
  have hlen : (split chars.space 9 raw.toList).length < 10 := by
    rw [split_length]
    omega
  unfold BglParser.parse
  split
  · rename_i hsplit
    rw [hsplit] at hlen
    exact absurd hlen (by simp)
  · exact ⟨_,rfl⟩

/-- Words and a text with one blank between each two of them. -/
theorem intercalate_eq (ws : List (List Char)) (m : List Char) :
    [' '].intercalate (ws ++ [m]) = ws.flatMap (fun w => w ++ [' ']) ++ m := by
  induction ws with
  | nil => simp
  | cons w ws ih =>
    rw [List.cons_append, List.intercalate_cons_of_ne_nil (by simp), ih]
    simp

theorem parse_joined (id : UUID) (hlen : ws.length = 9) (hws : ∀ w ∈ ws, IsWord chars.space w)
    (hm : ∃ c, m.head? = some c ∧ chars.space c = false) {time : List Char}
    (htime : ws[4]? = some time) {t : Datetime} (ht : IsStamp chars time t) :
    ∃ r, BglParser.parse chars id (String.ofList ([' '].intercalate (ws ++ [m]))) = .ok r ∧
      Holds ws m t r := by
  obtain ⟨c,hc,hspace⟩ := hm
  have hdrop : m.dropWhile chars.space = m := by
    cases m with
    | nil => rfl
    | cons d m =>
      obtain rfl := Option.some.inj hc
      exact List.dropWhile_cons_of_neg (by simp [hspace])
  have hne : m ≠ [] := by
    rintro rfl
    cases hc
  have hblank : chars.space ' ' = true := chars.space_ascii ' ' (by decide)
  have hsplit := split_join hblank hws hdrop hne
  rw [← intercalate_eq, hlen] at hsplit
  obtain ⟨time',level,htime',_,haccepts,_⟩ := parse_fields id hlen
    ((congrArg (split chars.space 9) String.toList_ofList).trans hsplit)
  obtain rfl := Option.some.inj (htime.symm.trans htime')
  obtain ⟨r,hr,hholds,_⟩ := haccepts t (strptime_stamp.mpr ht)
  exact ⟨r,hr,hholds⟩

theorem parse_ok {id : UUID} {r : LogRecord} (hr : BglParser.parse chars id raw = .ok r) :
    10 ≤ (words chars.space raw.toList).length ∧ ∃ m time level t,
      From chars.space 9 raw.toList m ∧
      (words chars.space raw.toList)[4]? = some time ∧ IsStamp chars time t ∧
      (words chars.space raw.toList)[8]? = some level ∧
      Holds (words chars.space raw.toList) m t r ∧ Graded level r := by
  have hlen : 10 ≤ (words chars.space raw.toList).length := by
    by_contra hshort
    obtain ⟨message,he⟩ := parse_short id (not_le.mp hshort)
    rw [hr] at he
    cases he
  obtain ⟨m,time,level,hfrom,htime,hlevel,haccepts,hrefuses⟩ := parse_long id hlen
  by_cases hstamp : ∃ t, IsStamp chars time t
  · obtain ⟨t,ht⟩ := hstamp
    obtain ⟨r',hr',hholds,hgraded⟩ := haccepts t ht
    rw [hr] at hr'
    obtain rfl := Except.ok.inj hr'
    exact ⟨hlen,m,time,level,t,hfrom,htime,ht,hlevel,hholds,hgraded⟩
  · obtain ⟨message,he⟩ := hrefuses hstamp
    rw [hr] at he
    cases he

theorem parse_accepts (id : UUID) : (∃ r, BglParser.parse chars id raw = .ok r) ↔
    10 ≤ (words chars.space raw.toList).length ∧
      ∃ time t, (words chars.space raw.toList)[4]? = some time ∧ IsStamp chars time t := by
  constructor
  · rintro ⟨r,hr⟩
    obtain ⟨hlen,_,time,_,t,_,htime,ht,_⟩ := parse_ok hr
    exact ⟨hlen,time,t,htime,ht⟩
  · rintro ⟨hlen,time,t,htime,ht⟩
    obtain ⟨_,time',_,_,htime',_,haccepts,_⟩ := parse_long id hlen
    obtain rfl := Option.some.inj (htime.symm.trans htime')
    obtain ⟨r,hr,_⟩ := haccepts t ht
    exact ⟨r,hr⟩

theorem parse_error {id : UUID} {e : PyError} (he : BglParser.parse chars id raw = .error e) :
    ∃ message, e = .parserError message := by
  by_cases hlen : 10 ≤ (words chars.space raw.toList).length
  · obtain ⟨_,time,_,_,_,_,haccepts,hrefuses⟩ := parse_long id hlen
    by_cases hstamp : ∃ t, IsStamp chars time t
    · obtain ⟨t,ht⟩ := hstamp
      obtain ⟨_,hr,_⟩ := haccepts t ht
      rw [he] at hr
      cases hr
    · obtain ⟨message,hm⟩ := hrefuses hstamp
      rw [he] at hm
      exact ⟨message,Except.error.inj hm⟩
  · obtain ⟨message,hm⟩ := parse_short id (not_le.mp hlen)
    rw [he] at hm
    exact ⟨message,Except.error.inj hm⟩

end

/-- The parser takes the lines of ten words or more of which the fifth is a
timestamp, and refuses the others with a `ParserError`. It reads the words
into the record, and words put together with blanks are read back. -/
theorem exact_bgl_format (chars : CharTable) (id : UUID) (raw : String) :
    ((∃ r, BglParser.parse chars id raw = .ok r) ↔
      10 ≤ (words chars.space raw.toList).length ∧
        ∃ time t, (words chars.space raw.toList)[4]? = some time ∧ IsStamp chars time t) ∧
    (∀ r, BglParser.parse chars id raw = .ok r → ∃ m time level t,
      From chars.space 9 raw.toList m ∧
      (words chars.space raw.toList)[4]? = some time ∧ IsStamp chars time t ∧
      (words chars.space raw.toList)[8]? = some level ∧
      Holds (words chars.space raw.toList) m t r ∧ Graded level r) ∧
    (∀ e, BglParser.parse chars id raw = .error e → ∃ message, e = .parserError message) ∧
    ∀ ws : List (List Char), ws.length = 9 → (∀ w ∈ ws, IsWord chars.space w) →
      ∀ time t, ws[4]? = some time → IsStamp chars time t →
      ∀ m : List Char, (∃ c, m.head? = some c ∧ chars.space c = false) →
        ∃ r, BglParser.parse chars id (String.ofList ([' '].intercalate (ws ++ [m]))) = .ok r ∧
          Holds ws m t r := by
  refine ⟨parse_accepts id,fun r hr => (parse_ok hr).2,fun e he => parse_error he,?_⟩
  intro ws hlen hws time t htime ht m hm
  exact parse_joined id hlen hws hm htime ht

/-- The line of the module's documentation. -/
def sampleRaw : String := "- 1117838570 2005.06.03 R02-M1-N0-C:J12-U11 " ++
  "2005-06-03-15.42.50.675872 R02-M1-N0-C:J12-U11 RAS KERNEL INFO " ++
  "instruction cache parity error corrected"

example : (BglParser.parse .ascii 0 sampleRaw).toOption.map (fun r => (r.timestamp,r.message)) =
    some (some (Calendar.instant 2005 6 3 15 42 50 675872),
      "instruction cache parity error corrected") := by
  decide +kernel

end PipelineX.BglFormat
