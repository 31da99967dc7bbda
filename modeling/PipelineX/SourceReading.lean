import PipelineX.LogSources

/-!
# How a file source ends

However a file comes in blocks, the lines it gives are those of the decoded text
as far as they are complete. It ends with them all, or with what was raised.
-/

set_option autoImplicit false

namespace PipelineX.LogSources
open PipelineX.Records PipelineX.TextFile

/-- The lines that are to come from a handle when this text does. -/
def Handle.remaining (h : Handle) (text : List Char) : List (List Char) :=
  linesFrom h.line (TextFile.translate ((if h.pendingCr then ['\r'] else []) ++ text))

theorem complete_lines (line cs more : List Char) :
    linesFrom line (cs ++ more) =
      (complete line cs).2 ++ linesFrom (complete line cs).1 more := by
  induction cs generalizing line with
  | nil => rfl
  | cons c cs ih =>
    by_cases hc : c = '\n'
    · simp [linesFrom, complete, hc, ih]
    · simp [linesFrom, complete, hc, ih]

theorem newline_translate (pendingCr : Bool) (c : Char) (text : List Char) :
    TextFile.translate ((if pendingCr then ['\r'] else []) ++ c::text) = (newline pendingCr c).2 ++
      TextFile.translate ((if (newline pendingCr c).1 then ['\r'] else []) ++ text) := by
  by_cases hr : c = '\r'
  · cases pendingCr <;> simp [newline, hr, TextFile.translate]
  · by_cases hn : c = '\n'
    · cases pendingCr <;> simp [newline, hn, TextFile.translate]
    · cases pendingCr <;> simp [newline, hr, hn, TextFile.translate]

/-- Characters put into a handle give lines, and the rest is still to come. -/
theorem Handle.put_lines (h : Handle) (cs text : List Char) :
    h.remaining (cs ++ text) = (h.put cs).2 ++ (h.put cs).1.remaining text := by
  induction cs generalizing h with
  | nil => rfl
  | cons c cs ih =>
    have hstep : h.remaining (c::(cs ++ text)) =
        (complete h.line (newline h.pendingCr c).2).2 ++
          Handle.remaining ⟨(newline h.pendingCr c).1,
            (complete h.line (newline h.pendingCr c).2).1⟩ (cs ++ text) := by
      rw [Handle.remaining, newline_translate, complete_lines]
      rfl
    rw [List.cons_append, hstep, ih, ← List.append_assoc]
    rfl

theorem Handle.finish_lines (h : Handle) : h.finish = h.remaining [] := by
  have htranslate : TextFile.translate ((if h.pendingCr then ['\r'] else []) ++ []) =
      (if h.pendingCr then ['\n'] else []) ++ [] := by
    cases h.pendingCr <;> rfl
  rw [Handle.remaining, htranslate, complete_lines]
  rfl

theorem map_eq_ok {ε α β : Type} {x : Except ε α} {f : α → β} {y : β} :
    x.map f = .ok y ↔ ∃ a, x = .ok a ∧ f a = y := by
  cases x <;> simp [Except.map]

section
variable {σ : Type} (d : Decoder σ)

theorem Decoder.decode_append (s : σ) (as bs : List UInt8) : d.decode s (as ++ bs) =
    match d.decode s as with
    | .error e => .error e
    | .ok (s',cs) => (d.decode s' bs).map (fun p => (p.1,cs ++ p.2)) := by
  induction as generalizing s with
  | nil =>
    simp only [List.nil_append, Decoder.decode]
    cases d.decode s bs with
    | error e => rfl
    | ok p => rfl
  | cons a as ih =>
    rw [List.cons_append, Decoder.decode, Decoder.decode]
    cases d.next s a with
    | error e => rfl
    | ok p =>
      dsimp only
      rw [ih]
      cases d.decode p.1 as with
      | error e => rfl
      | ok q =>
        dsimp only [Except.map]
        cases d.decode q.1 bs with
        | error e => rfl
        | ok r => simp

/-- The text of the bytes before the first that does not decode. -/
def Decoder.text : σ → List UInt8 → List Char
  | _, [] => []
  | s, b::bs =>
    match d.next s b with
    | .error _ => []
    | .ok (s',cs) => cs ++ Decoder.text s' bs

theorem Decoder.text_of_decode {s s' : σ} {bs rest : List UInt8} {cs : List Char}
    (h : d.decode s bs = .ok (s',cs)) : d.text s (bs ++ rest) = cs ++ d.text s' rest := by
  induction bs generalizing s cs with
  | nil =>
    obtain ⟨rfl,rfl⟩ := Prod.mk.inj (Except.ok.inj h)
    rfl
  | cons b bs ih =>
    rw [Decoder.decode] at h
    rw [List.cons_append, Decoder.text]
    cases hnext : d.next s b with
    | error e =>
      rw [hnext] at h
      cases h
    | ok p =>
      rw [hnext] at h
      dsimp only at h ⊢
      cases hdecode : d.decode p.1 bs with
      | error e =>
        rw [hdecode] at h
        cases h
      | ok q =>
        rw [hdecode] at h
        obtain ⟨rfl,rfl⟩ := Prod.mk.inj (Except.ok.inj h)
        rw [ih hdecode, List.append_assoc]

/-- The bytes are those of a whole text. -/
def Decoder.Decodes (bytes : List UInt8) (text : List Char) : Prop :=
  ∃ s, d.decode d.start bytes = .ok (s,text) ∧ d.stop s = .ok ()

variable {d} in
/-- A block that decodes is followed by the rest, after the lines it completes. -/
theorem Decoder.iterate_decoded {s : σ} {b : List UInt8} {p : σ × List Char}
    (hb : d.decode s b = .ok p) (h : Handle) (blocks : List (List UInt8))
    (fault : Option ReadError) : d.iterate s h (b::blocks) fault =
      ((h.put p.2).2 ++ (d.iterate p.1 (h.put p.2).1 blocks fault).1,
        (d.iterate p.1 (h.put p.2).1 blocks fault).2) := by
  rw [Decoder.iterate, hb]

variable {d} in
theorem Decoder.iterate_undecoded {s : σ} {b : List UInt8} {e : String}
    (hb : d.decode s b = .error e) (h : Handle) (blocks : List (List UInt8))
    (fault : Option ReadError) :
    d.iterate s h (b::blocks) fault = ([],some (.unicodeDecode e)) := by
  rw [Decoder.iterate, hb]

theorem Decoder.iterate_front (s : σ) (h : Handle) (blocks : List (List UInt8))
    (fault : Option ReadError) (more : List Char)
    (hmore : (d.iterate s h blocks fault).2 = none → more = []) :
    (d.iterate s h blocks fault).1 <+: h.remaining (d.text s blocks.flatten ++ more) := by
  induction blocks generalizing s h with
  | nil =>
    cases fault with
    | some e => exact List.nil_prefix
    | none =>
      rw [Decoder.iterate] at hmore ⊢
      cases hstop : d.stop s with
      | error e => exact List.nil_prefix
      | ok u =>
        rw [hstop] at hmore
        rw [hmore rfl, h.finish_lines]
        exact List.prefix_rfl
  | cons b blocks ih =>
    cases hb : d.decode s b with
    | error e =>
      rw [Decoder.iterate_undecoded hb]
      exact List.nil_prefix
    | ok p =>
      rw [Decoder.iterate_decoded hb] at hmore ⊢
      rw [List.flatten_cons, d.text_of_decode hb, List.append_assoc, h.put_lines]
      exact (List.prefix_append_right_inj _).mpr (ih p.1 (h.put p.2).1 hmore)

/-- A file that is read and decoded to its end gives all lines of its text. -/
theorem Decoder.iterate_whole {s s' : σ} (h : Handle) {blocks : List (List UInt8)}
    {cs : List Char} (hdecode : d.decode s blocks.flatten = .ok (s',cs))
    (hstop : d.stop s' = .ok ()) : d.iterate s h blocks none = (h.remaining cs,none) := by
  induction blocks generalizing s h cs with
  | nil =>
    obtain ⟨rfl,rfl⟩ := Prod.mk.inj (Except.ok.inj hdecode)
    rw [Decoder.iterate, hstop, ← h.finish_lines]
  | cons b blocks ih =>
    rw [List.flatten_cons, d.decode_append] at hdecode
    cases hb : d.decode s b with
    | error e =>
      rw [hb] at hdecode
      cases hdecode
    | ok p =>
      rw [hb] at hdecode
      obtain ⟨q,hrest,hq⟩ := map_eq_ok.mp hdecode
      obtain ⟨rfl,rfl⟩ := Prod.mk.inj hq
      rw [Decoder.iterate_decoded hb, ih (h.put p.2).1 hrest, h.put_lines]

theorem Decoder.iterate_ended (s : σ) (h : Handle) (blocks : List (List UInt8))
    (fault : Option ReadError) : (d.iterate s h blocks fault).2 = none ↔
      fault = none ∧ ∃ s' cs, d.decode s blocks.flatten = .ok (s',cs) ∧ d.stop s' = .ok () := by
  constructor
  · intro hnone
    induction blocks generalizing s h with
    | nil =>
      cases fault with
      | some e => cases hnone
      | none =>
        rw [Decoder.iterate] at hnone
        cases hstop : d.stop s with
        | error e =>
          rw [hstop] at hnone
          cases hnone
        | ok u => exact ⟨rfl,s,[],rfl,hstop⟩
    | cons b blocks ih =>
      rw [List.flatten_cons, d.decode_append]
      cases hb : d.decode s b with
      | error e =>
        rw [Decoder.iterate_undecoded hb] at hnone
        cases hnone
      | ok p =>
        rw [Decoder.iterate_decoded hb] at hnone
        obtain ⟨hfault,s',cs,hrest,hstop⟩ := ih p.1 (h.put p.2).1 hnone
        exact ⟨hfault,s',p.2 ++ cs,map_eq_ok.mpr ⟨(s',cs),hrest,rfl⟩,hstop⟩
  · rintro ⟨rfl,s',cs,hdecode,hstop⟩
    rw [d.iterate_whole h hdecode hstop]

theorem Decoder.iterate_os (s : σ) (h : Handle) (blocks : List (List UInt8))
    (fault : Option ReadError) : (∃ m, (d.iterate s h blocks fault).2 = some (.os m)) ↔
      (∃ m, fault = some (.os m)) ∧ ∃ p, d.decode s blocks.flatten = .ok p := by
  induction blocks generalizing s h with
  | nil =>
    cases fault with
    | some e => simp [Decoder.iterate, Decoder.decode]
    | none =>
      rw [Decoder.iterate]
      cases d.stop s <;> simp
  | cons b blocks ih =>
    rw [List.flatten_cons, d.decode_append]
    cases hb : d.decode s b with
    | error e =>
      rw [Decoder.iterate_undecoded hb]
      simp
    | ok p =>
      rw [Decoder.iterate_decoded hb, ih]
      constructor
      · rintro ⟨hfault,q,hrest⟩
        exact ⟨hfault,_,map_eq_ok.mpr ⟨q,hrest,rfl⟩⟩
      · rintro ⟨hfault,_,hmap⟩
        obtain ⟨q,hrest,_⟩ := map_eq_ok.mp hmap
        exact ⟨hfault,q,hrest⟩

end

namespace FileLogSource

theorem iterLines_eq (ls : List (List Char)) :
    iterLines ls = (ls.map rstripNewline).filter (fun line => decide (line ≠ [])) := by
  induction ls with
  | nil => rfl
  | cons raw rest ih =>
    rw [iterLines, List.map_cons, List.filter_cons]
    by_cases hraw : rstripNewline raw = []
    · simp [hraw, ih]
    · simp [hraw, ih]

theorem iterLines_prefix {ls ms : List (List Char)} (h : ls <+: ms) :
    iterLines ls <+: iterLines ms := by
  rw [iterLines_eq, iterLines_eq]
  exact (h.map _).filter _

section
variable {σ : Type} {d : Decoder σ}

/-- The lines are the first non-empty ones of the file, whatever the rest of it
may say, and the stream ends with all of them or with a `SourceError`. -/
structure OnlySourceError (d : Decoder σ) (bytes : List UInt8) (run : Run) : Prop where
  front : ∀ more, (run.raised = none → more = []) →
    run.yielded <+: streamText (d.text d.start bytes ++ more)
  outcome : (run.raised = none ∧ ∃ text, d.Decodes bytes text ∧ run.yielded = streamText text) ∨
    ∃ message, run.raised = some (.other "SourceError" message)

/-- All bytes that are read decode. They are followed by the end of the file,
not within a character, or by an `OSError`. -/
def Readable (d : Decoder σ) (r : Reading) : Prop :=
  (r.fault = none ∧ ∃ text, d.Decodes r.blocks.flatten text) ∨
    (∃ m, r.fault = some (.os m)) ∧ ∃ p, d.decode d.start r.blocks.flatten = .ok p

theorem raised_source_iff (path : String) (raised : Option ReadError) :
    (∃ message, raised.map (raisedAs path) = some (.other "SourceError" message)) ↔
      ∃ m, raised = some (.os m) := by
  constructor
  · rintro ⟨message,h⟩
    obtain ⟨e,he,hraised⟩ := Option.map_eq_some_iff.mp h
    cases e with
    | os m => exact ⟨m,he⟩
    | eof m => simp [raisedAs] at hraised
    | zlib m => simp [raisedAs] at hraised
    | unicodeDecode m => simp [raisedAs] at hraised
  · rintro ⟨m,rfl⟩
    exact ⟨_,rfl⟩

end

/-- A file source fails only with `SourceError` when what is read of its file
decodes and the reading ends at the end of the file or with an `OSError`. -/
theorem only_sourceError_iff {σ : Type} (d : Decoder σ) (files : Files) (path suffix : String)
    (content : List UInt8) :
    OnlySourceError d (reading files suffix content).blocks.flatten
        (stream d files path suffix content) ↔
      Readable d (reading files suffix content) := by
  have hremaining (text : List Char) : Handle.remaining {} text = lines text := rfl
  generalize hr : reading files suffix content = r
  have hyielded : (stream d files path suffix content).yielded =
      iterLines (d.iterate d.start {} r.blocks r.fault).1 := by
    rw [stream, hr]
  have hraised : (stream d files path suffix content).raised =
      (d.iterate d.start {} r.blocks r.fault).2.map (raisedAs path) := by
    rw [stream, hr]
  have hended : (stream d files path suffix content).raised = none ↔
      (d.iterate d.start {} r.blocks r.fault).2 = none := by
    rw [hraised, Option.map_eq_none_iff]
  constructor
  · intro h
    rcases h.outcome with ⟨hnone,_⟩ | hsource
    · obtain ⟨hfault,s,text,hdecode,hstop⟩ := (d.iterate_ended _ _ _ _).mp (hended.mp hnone)
      exact Or.inl ⟨hfault,text,s,hdecode,hstop⟩
    · rw [hraised, raised_source_iff] at hsource
      exact Or.inr ((d.iterate_os _ _ _ _).mp hsource)
  · intro h
    constructor
    · intro more hmore
      rw [hyielded, streamText, ← hremaining]
      exact iterLines_prefix (d.iterate_front _ _ _ _ _ fun hnone => hmore (hended.mpr hnone))
    · rcases h with ⟨hfault,text,s,hdecode,hstop⟩ | hos
      · rw [hfault, d.iterate_whole {} hdecode hstop] at hraised hyielded
        exact Or.inl ⟨hraised,text,⟨s,hdecode,hstop⟩,hyielded⟩
      · refine Or.inr ?_
        rw [hraised, raised_source_iff]
        exact (d.iterate_os _ _ _ _).mpr hos

/-- A file with one byte that is not UTF-8. -/
def badByte : List UInt8 := [97,10,255]

/-- The header of an archive that was cut off after it. -/
def cutArchive : List UInt8 := [31,139,8,0,0,0,0,0,0,3]

/-- Files are read in one block. Of the archive nothing is there to be read. -/
def sampleFiles : Files where
  plain content := ⟨[content],none⟩
  gzip _ := ⟨[],some (.eof
    "Compressed file ended before the end-of-stream marker was reached")⟩

/-- One byte that does not decode, or an archive that is cut off. -/
theorem decode_error_escapes :
    ¬OnlySourceError utf8 badByte (stream utf8 sampleFiles "app.log" ".log" badByte) ∧
    ¬OnlySourceError utf8 [] (stream utf8 sampleFiles "app.log.gz" ".gz" cutArchive) := by
  have hplain : stream utf8 sampleFiles "app.log" ".log" badByte =
      ⟨[],some (.other "UnicodeDecodeError" "invalid start byte")⟩ := by decide
  have hgzip : stream utf8 sampleFiles "app.log.gz" ".gz" cutArchive =
      ⟨[],some (.other "EOFError"
        "Compressed file ended before the end-of-stream marker was reached")⟩ := by decide
  rw [hplain, hgzip]
  constructor
  · intro h
    rcases h.outcome with ⟨hnone,_⟩ | ⟨message,hsource⟩
    · cases hnone
    · exact absurd (PyError.other.inj (Option.some.inj hsource)).1 (by decide)
  · intro h
    rcases h.outcome with ⟨hnone,_⟩ | ⟨message,hsource⟩
    · cases hnone
    · exact absurd (PyError.other.inj (Option.some.inj hsource)).1 (by decide)

end FileLogSource
end PipelineX.LogSources
