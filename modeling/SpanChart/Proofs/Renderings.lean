/-
  RENDERINGS — the same drawing, wherever it is written and however often.

  A drawing gets to where it should be in two ways: written on, to something that somebody else has
  been writing to and will go on writing to, or saved, to a file that is opened for it and thereby
  emptied.  All that either leaves behind is the one text `Drawing.svg`, or the beginning of it.

  * `write_eq` — one drawing on a sink, and nothing but the text of the sink is another afterwards;
    a sink that has failed is as it was altogether;
  * `Given` — what a spool has of the text it was given: all of it, or where it has failed a
    beginning that is already too long.  One piece keeps this (`given_put`), so a drawing does
    (`given_write`);
  * `Settled` — what a spool that has not failed still owes: there is room for all of its text but
    what waits, and what waits is less than a buffer;
  * `saveAt_file` — from both, what is in a file in the end, which depends on the room alone, and
    what is reported of it, which does not tell a text that fits from one that is too long by less
    than a buffer (`saved_without_room`);
  * `writeAll_eq` — one drawing after the other on one sink, by induction on the drawings: each is
    added to the texts of those before, because each finds the sink as good and as precise as the
    first one did.
-/
import SpanChart.Proofs.Writing
import SpanChart.Layout

namespace SpanChart

open Writable (putAll)

namespace Spool

/-! ## Room -/

theorem fits_some {n : Nat} {text : String} : fits (some n) text = true ↔ text.utf8ByteSize ≤ n :=
  decide_eq_true_iff

/-- What is too long stays too long. -/
theorem fits_append {room : Option Nat} {text : String} (h : fits room text = false)
    (rest : String) : fits room (text ++ rest) = false := by
  cases room with
  | none => exact absurd h Bool.true_eq_false.mp
  | some n =>
    rw [Bool.eq_false_iff, Ne, fits_some] at h ⊢
    rw [String.utf8ByteSize_append]
    omega

/-- Where a text is too long already, nothing of what comes after it has room. -/
theorem firstBytes_append {room : Option Nat} {text : String} (h : fits room text = false)
    (rest : String) : firstBytes room (text ++ rest) = firstBytes room text := by
  cases room with
  | none => exact absurd h Bool.true_eq_false.mp
  | some n =>
    have hlong : n ≤ text.toByteArray.size := by
      rw [Bool.eq_false_iff, Ne, fits_some] at h
      exact Nat.le_of_not_le h
    show (text ++ rest).toByteArray.extract 0 n = text.toByteArray.extract 0 n
    rw [String.toByteArray_append, ByteArray.extract_append, Nat.sub_eq_zero_of_le hlong]
    simp

/-- All of a text is there if and only if there is room for it. -/
theorem firstBytes_eq_iff {room : Option Nat} {text : String} :
    firstBytes room text = text.toUTF8 ↔ fits room text = true := by
  cases room with
  | none => exact iff_of_true rfl rfl
  | some n =>
    rw [fits_some]
    show text.toByteArray.extract 0 n = text.toByteArray ↔ text.toByteArray.size ≤ n
    constructor
    · intro h
      have hsize := congrArg ByteArray.size h
      rw [ByteArray.size_extract] at hsize
      omega
    · intro h
      apply ByteArray.ext
      rw [ByteArray.data_extract]
      exact Array.extract_eq_self_of_le h

/-! ## What a spool has of a text -/

/-- What a spool has of a text it was given: all of it, or where it has failed a beginning for which
    there is no room. -/
structure Given (spool : Spool) (text : String) : Prop where
  all : spool.failed = false → spool.text = text
  cut : spool.failed = true → ∃ rest, text = spool.text ++ rest ∧ fits spool.room spool.text = false

/-- What a spool that has not failed owes: there is room for all that does not wait, and less than a
    buffer waits, or nothing. -/
structure Settled (spool : Spool) : Prop where
  taken : spool.failed = false → ∀ n, spool.room = some n →
    spool.text.utf8ByteSize ≤ n + spool.waiting
  waiting : spool.waiting < spool.buffer ∨ spool.waiting = 0

variable {spool : Spool} {text : String}

theorem put_of_failed (h : spool.failed = true) (piece : Piece Float) : spool.put piece = spool :=
  if_pos h

/-- A piece leaves everything as it was set. -/
theorem settings_put (spool : Spool) (piece : Piece Float) :
    (spool.put piece).precision = spool.precision ∧ (spool.put piece).room = spool.room ∧
      (spool.put piece).buffer = spool.buffer := by
  unfold put
  split
  · exact ⟨rfl, rfl, rfl⟩
  · dsimp only
    split
    · exact ⟨rfl, rfl, rfl⟩
    · exact ⟨rfl, rfl, rfl⟩

/-- What a piece does to a spool that has not failed: it waits, or it is passed on with all that
    waits. -/
theorem put_cases (h : spool.failed = false) (piece : Piece Float) :
    let text := spool.text ++ piece.render spool.precision
    let waiting := spool.waiting + (piece.render spool.precision).utf8ByteSize
    (waiting < spool.buffer ∧ spool.put piece = { spool with text, waiting }) ∨
      spool.put piece = { spool with text, waiting := 0, failed := !fits spool.room text } := by
  intro text waiting
  unfold put
  rw [if_neg (Bool.eq_false_iff.1 h)]
  by_cases hwaits : waiting < spool.buffer
  · exact Or.inl ⟨hwaits, if_pos hwaits⟩
  · exact Or.inr (if_neg hwaits)

/-- A piece is given after the text before it. -/
theorem given_put (h : Given spool text) (piece : Piece Float) :
    Given (spool.put piece) (text ++ piece.render spool.precision) := by
  cases hfailed : spool.failed with
  | true =>
    rw [put_of_failed hfailed]
    obtain ⟨rest, htext, hlong⟩ := h.cut hfailed
    -- what has failed takes nothing: the piece is cut off with the rest
    refine ⟨fun hgood => absurd (hfailed.symm.trans hgood) Bool.true_eq_false.mp, fun _ => ?_⟩
    exact ⟨rest ++ piece.render spool.precision, by rw [htext, String.append_assoc], hlong⟩
  | false =>
    rw [← h.all hfailed]
    rcases put_cases hfailed piece with ⟨-, hput⟩ | hput
    · rw [hput]
      exact ⟨fun _ => rfl, fun hbad => absurd (hfailed.symm.trans hbad) Bool.false_ne_true⟩
    · rw [hput]
      refine ⟨fun _ => rfl, fun hbad => ⟨"", String.append_empty.symm, ?_⟩⟩
      rw [Bool.not_eq_true'] at hbad
      exact hbad

/-- Whether a piece waits or is passed on, nothing more is owed. -/
theorem settled_put (h : Settled spool) (piece : Piece Float) : Settled (spool.put piece) := by
  cases hfailed : spool.failed with
  | true =>
    rw [put_of_failed hfailed]
    exact h
  | false =>
    rcases put_cases hfailed piece with ⟨hwaits, hput⟩ | hput
    · rw [hput]
      refine ⟨fun _ n hroom => ?_, Or.inl hwaits⟩
      have htaken := h.taken hfailed n hroom
      have hsize := String.utf8ByteSize_append (s := spool.text)
        (t := piece.render spool.precision)
      show (spool.text ++ piece.render spool.precision).utf8ByteSize ≤ _
      dsimp only
      omega
    · rw [hput]
      -- all of it was passed on, and there was room, or the spool would have failed
      refine ⟨fun hgood n hroom => ?_, Or.inr rfl⟩
      rw [Bool.not_eq_false'] at hgood
      have hroom' : spool.room = some n := hroom
      rw [hroom', fits_some] at hgood
      exact hgood

/-! ## What a drawing does to a spool -/

theorem settings_putAll (spool : Spool) (pieces : List (Piece Float)) :
    (putAll spool pieces).precision = spool.precision ∧
      (putAll spool pieces).room = spool.room ∧ (putAll spool pieces).buffer = spool.buffer := by
  induction pieces generalizing spool with
  | nil => exact ⟨rfl, rfl, rfl⟩
  | cons piece pieces ih =>
    obtain ⟨hprecision, hroom, hbuffer⟩ := settings_put spool piece
    obtain ⟨hprecision', hroom', hbuffer'⟩ := ih (spool.put piece)
    exact ⟨hprecision'.trans hprecision, hroom'.trans hroom, hbuffer'.trans hbuffer⟩

theorem given_putAll (h : Given spool text) (pieces : List (Piece Float)) :
    Given (putAll spool pieces) (text ++ Piece.renderAll spool.precision pieces) := by
  induction pieces generalizing spool text with
  | nil =>
    have hnil : text ++ Piece.renderAll spool.precision [] = text := String.append_empty
    rw [hnil]
    exact h
  | cons piece pieces ih =>
    have hpieces := ih (given_put h piece)
    rw [(settings_put spool piece).1, String.append_assoc, ← Piece.renderAll_cons] at hpieces
    exact hpieces

theorem settled_putAll (h : Settled spool) (pieces : List (Piece Float)) :
    Settled (putAll spool pieces) := by
  induction pieces generalizing spool with
  | nil => exact h
  | cons piece pieces ih => exact ih (settled_put h piece)

end Spool

namespace Drawing

variable (d : Drawing Float)

/-! ## One drawing -/

/-- A sink after a drawing was written to it. -/
theorem write_eq (sink : Sink) :
    d.write sink = if sink.failed then sink else { sink with text := sink.text ++ d.svg } := by
  split
  case isTrue h => exact d.write_of_failed h
  case isFalse h => exact d.write_of_good (Bool.eq_false_iff.2 h)

theorem failed_write (sink : Sink) : (d.write sink).failed = sink.failed := by
  rw [write_eq]
  split <;> rfl

section Spool

variable {spool : Spool}

/-- A spool to which a drawing was written has taken all of its pieces with all digits, and its own
    precision again. -/
theorem write_spool (spool : Spool) :
    d.write spool =
      { putAll { spool with precision := Numeral.faithful } d.pieces with
        precision := spool.precision } := rfl

/-- A drawing leaves everything as it was set. -/
theorem settings_write (spool : Spool) :
    (d.write spool).precision = spool.precision ∧ (d.write spool).room = spool.room ∧
      (d.write spool).buffer = spool.buffer := by
  obtain ⟨-, hroom, hbuffer⟩ :=
    Spool.settings_putAll { spool with precision := Numeral.faithful } d.pieces
  exact ⟨rfl, hroom, hbuffer⟩

/-- A spool that has failed stays as it is. -/
theorem write_of_failed_spool (h : spool.failed = true) : d.write spool = spool := by
  have hfailed : ({ spool with precision := Numeral.faithful } : Spool).failed = true := h
  rw [write_spool, Writable.putAll_eq_self (Spool.put_of_failed hfailed)]

/-- A drawing is given to a spool after the text before it. -/
theorem given_write {text : String} (h : spool.Given text) :
    (d.write spool).Given (text ++ d.svg) := by
  have hdigits : Spool.Given { spool with precision := Numeral.faithful } text := ⟨h.all, h.cut⟩
  rw [svg_eq]
  have hall := Spool.given_putAll hdigits d.pieces
  exact ⟨hall.all, hall.cut⟩

theorem settled_write (h : spool.Settled) : (d.write spool).Settled := by
  have hdigits : Spool.Settled { spool with precision := Numeral.faithful } := ⟨h.taken, h.waiting⟩
  have hall := Spool.settled_putAll hdigits d.pieces
  exact ⟨hall.taken, hall.waiting⟩

/-- A spool that has not failed after a drawing has all of its text. -/
theorem text_write_of_good (h : (d.write spool).failed = false) :
    (d.write spool).text = spool.text ++ d.svg := by
  cases hfailed : spool.failed with
  | true =>
    rw [write_of_failed_spool d hfailed, hfailed] at h
    cases h
  | false =>
    have hgiven : spool.Given spool.text :=
      ⟨fun _ => rfl, fun hbad => absurd (hfailed.symm.trans hbad) Bool.false_ne_true⟩
    exact (d.given_write hgiven).all h

end Spool

/-! ## Files -/

/-- A file is opened as a spool, written to and closed, and success is reported unless the spool has
    failed before it is closed. -/
theorem saveAt_eq (path : String) (buffer : Nat) (content : ByteArray) (room : Option Nat)
    {written : Spool} (h : d.write ({ buffer, room } : Spool) = written) :
    d.saveAt path buffer (.file content room) =
      (if written.failed then .error (.cannotWrite path) else .ok (),
        .file (Spool.firstBytes written.room written.text) written.room) := by
  have hfailed : Writable.failed written = written.failed := rfl
  simp only [saveAt, save, Place.opened, Place.closing, Option.map_some, h, hfailed]
  split
  · rfl
  · rfl

/-- What is in a file once a drawing was saved in it is as much of its text as there is room for,
    whatever was there before and whatever was reported.  If there is room for all of it, success is
    reported, and if there is none for a buffer or more of it, failure. -/
theorem saveAt_file (path : String) (buffer : Nat) (content : ByteArray) (room : Option Nat) :
    let saved := d.saveAt path buffer (.file content room)
    saved.2 = .file (Spool.firstBytes room d.svg) room ∧
      (saved.1 = .ok () ∨ saved.1 = .error (.cannotWrite path)) ∧
      (Spool.fits room d.svg = true → saved.1 = .ok ()) ∧
      ∀ n, room = some n → n < d.svg.utf8ByteSize → n + buffer ≤ d.svg.utf8ByteSize →
        saved.1 = .error (.cannotWrite path) := by
  have hgiven : (d.write ({ buffer, room } : Spool)).Given ("" ++ d.svg) :=
    d.given_write ⟨fun _ => rfl, fun hbad => absurd hbad Bool.false_ne_true⟩
  have hsettled : (d.write ({ buffer, room } : Spool)).Settled :=
    d.settled_write ⟨fun _ n _ => Nat.zero_le _, Or.inr rfl⟩
  have hroom := (d.settings_write { buffer, room }).2.1
  have hbuffer := (d.settings_write { buffer, room }).2.2
  dsimp only at hroom hbuffer
  -- of what was written only these facts matter from here on
  generalize hwritten : d.write ({ buffer, room } : Spool) = written
    at hgiven hsettled hroom hbuffer
  rw [String.empty_append] at hgiven
  rw [d.saveAt_eq path buffer content room hwritten, hroom]
  cases hfailed : written.failed with
  | true =>
    -- the beginning that the spool has is too long already, and so is the text
    obtain ⟨rest, hrest, hfull⟩ := hgiven.cut hfailed
    rw [hroom] at hfull
    refine ⟨?_, Or.inr rfl, fun hfits => ?_, fun _ _ _ _ => rfl⟩
    · rw [hrest, Spool.firstBytes_append hfull]
    · rw [hrest, Spool.fits_append hfull] at hfits
      cases hfits
  | false =>
    refine ⟨?_, Or.inl rfl, fun _ => rfl, fun n hn hlong hmuch => ?_⟩
    · rw [hgiven.all hfailed]
    · -- nothing was passed on that there was no room for, so what is missing still waits
      have htaken := hsettled.taken hfailed n (hroom.trans hn)
      have hwaiting := hsettled.waiting
      rw [hgiven.all hfailed] at htaken
      omega

/-! ## One drawing after the other -/

/-- Writes drawings one after the other. -/
def writeAll (ds : List (Drawing Float)) (sink : Sink) : Sink :=
  ds.foldl (fun sink d => d.write sink) sink

/-- A sink after drawings were written to it has their texts in that order, or has failed before
    and is as it was. -/
theorem writeAll_eq (ds : List (Drawing Float)) (sink : Sink) :
    writeAll ds sink =
      if sink.failed then sink
      else { sink with text := sink.text ++ String.join (ds.map svg) } := by
  induction ds generalizing sink with
  | nil =>
    show sink = if sink.failed then sink else { sink with text := sink.text ++ "" }
    rw [String.append_empty, ite_self]
  | cons d ds ih =>
    have hcons : writeAll (d :: ds) sink = writeAll ds (d.write sink) := rfl
    rw [hcons, ih, failed_write, write_eq, List.map_cons, String.join_cons, ← String.append_assoc]
    split <;> rfl

/-- **All renderings agree.**  What is drawn of a chart and its links in a style has one text, that
    of its pieces with 17 digits.

    Written to a sink, this text is added to what is there if the sink takes anything, whatever is
    there and whatever the precision of the sink; a sink that has failed gets nothing and still has
    failed.  Several drawings written to one sink are their texts one after the other.  Written to a
    spool, which may fail on the way, the text is added if the spool has not failed in the end.  The
    precision is the one before in every case.

    Saved in a file, this text is all there is, whatever was there before, as far as there is room
    for it.  If there is room for all of it, success is reported; if there is none for a buffer or
    more of it, failure; in between either may be.  So a file that was saved with success has the
    text of the drawing if and only if there was room for it.  Where nothing can be opened nothing
    changes, and that is reported.

    What is written to has no other settings than its precision, and a sink never runs out of
    room. -/
theorem renderings_agree (style : Style Float) (chart : Chart Float) (links : List (Link Float)) :
    let d := ofChart style chart links
    let text := Piece.renderAll 17 d.pieces
    d.svg = text ∧
      (∀ sink : Sink, (d.write sink).text = sink.text ++ (if sink.failed then "" else text) ∧
        (d.write sink).precision = sink.precision ∧ (d.write sink).failed = sink.failed) ∧
      (∀ ds (sink : Sink), writeAll ds sink =
        if sink.failed then sink
        else { sink with text := sink.text ++ String.join (ds.map svg) }) ∧
      (∀ spool : Spool, (d.write spool).precision = spool.precision ∧
        (spool.failed = true → d.write spool = spool) ∧
        ((d.write spool).failed = false → (d.write spool).text = spool.text ++ text)) ∧
      (∀ path buffer content room,
        let saved := d.saveAt path buffer (.file content room)
        saved.2 = .file (Spool.firstBytes room text) room ∧
          (saved.2 = .file text.toUTF8 room ↔ Spool.fits room text = true) ∧
          (saved.1 = .ok () ∨ saved.1 = .error (.cannotWrite path)) ∧
          (Spool.fits room text = true → saved.1 = .ok ()) ∧
          ∀ n, room = some n → n < text.utf8ByteSize → n + buffer ≤ text.utf8ByteSize →
            saved.1 = .error (.cannotWrite path)) ∧
      ∀ path buffer, d.saveAt path buffer .closed = (.error (.cannotOpen path), .closed) := by
  intro d text
  have htext : d.svg = text := d.svg_eq
  rw [← htext]
  refine ⟨rfl, fun sink => ?_, writeAll_eq, fun spool => ?_, fun path buffer content room => ?_,
    fun _ _ => rfl⟩
  · rw [write_eq]
    split <;> simp
  · exact ⟨rfl, d.write_of_failed_spool, d.text_write_of_good⟩
  · intro saved
    obtain ⟨hafter, hreported⟩ := d.saveAt_file path buffer content room
    refine ⟨hafter, ?_, hreported⟩
    rw [← Spool.firstBytes_eq_iff]
    constructor
    · intro h
      exact (Place.file.inj (hafter.symm.trans h)).1
    · intro h
      exact hafter.trans (congrArg (Place.file · room) h)

/-- Two tasks in turn, placed: the second is three times as long as the first. -/
def twoInTurn : Chart Float :=
  (Chart.group .sequential Point.origin
    (.task ⟨0, 1, 1, false, Point.origin, by decide +kernel⟩)
    [.task ⟨1, 4, 2, false, Point.origin, by decide +kernel⟩]).place Point.origin

/-- Two tasks in turn and the link between them, drawn in a viewport in which the first is 10/3
    wide: the text on a sink with few digits that has been written to, on one that has failed, and
    in a file where something else was. -/
theorem renderings_of_twoInTurn :
    let style := { Style.standard with viewport := ⟨10, 4⟩ }
    let d := ofChart style twoInTurn twoInTurn.innerLinks
    let text :=
      "<svg version=\"1.1\" viewBox=\"0 0 10 4\" xmlns=\"http://www.w3.org/2000/svg\">\n" ++
      "<rect width=\"3.3333333333333335\" height=\"2\" x=\"3.3333333333333335\" y=\"0\"" ++
      " style=\"fill:green\"/>\n" ++
      "<rect width=\"10\" height=\"2\" x=\"0\" y=\"2\" style=\"fill:blue\"/>\n" ++
      "<line x1=\"5\" y1=\"2\" x2=\"5\" y2=\"2\" style=\"stroke:black;stroke-width:1\"/>\n" ++
      "</svg>\n"
    (d.write ⟨"1.23\n", 3, false⟩ : Sink).text = "1.23\n" ++ text ∧
      (d.write ⟨"1.23\n", 3, false⟩ : Sink).precision = 3 ∧
      (d.write ⟨"1.23\n", 3, true⟩ : Sink).text = "1.23\n" ∧
      d.saveAt "out.svg" Spool.usualBuffer (.file "old".toUTF8 none) =
        (.ok (), .file text.toUTF8 none) := by
  intro style d text
  have htext : Piece.renderAll 17 d.pieces = text := by decide +kernel
  obtain ⟨-, hsink, -, -, hfile, -⟩ := renderings_agree style twoInTurn twoInTurn.innerLinks
  obtain ⟨-, hwhole, -, hok, -⟩ := hfile "out.svg" Spool.usualBuffer "old".toUTF8 none
  have hgood := hsink ⟨"1.23\n", 3, false⟩
  have hfailed := (hsink ⟨"1.23\n", 3, true⟩).1
  rw [← htext]
  exact ⟨hgood.1, hgood.2.1, hfailed.trans String.append_empty,
    Prod.ext (hok rfl) (hwhole.2 rfl)⟩

/-- A run of one task. -/
def oneTask : Trace Float := [⟨1, 0, 0, 4, 2, ""⟩]

/-- **Success is reported where there was no room.**  A run of one task, saved on a device that
    takes nothing: all of the text still waits in the buffer when success is reported, and none of
    it is there in the end. -/
theorem saved_without_room :
    ∃ layout, Layout.ofTrace oneTask = .ok layout ∧
      let d := ofChart Style.standard layout.chart layout.links
      let saved := d.saveAt "/dev/full" Spool.usualBuffer (.file ByteArray.empty (some 0))
      saved.1 = .ok () ∧ saved.2 = .file ByteArray.empty (some 0) ∧
        saved.2 ≠ .file d.svg.toUTF8 (some 0) := by
  have hsome : (Layout.ofTrace oneTask).toOption.any (fun l =>
      let d := ofChart Style.standard l.chart l.links
      (d.saveAt "/dev/full" Spool.usualBuffer (.file ByteArray.empty (some 0))).1.isOk &&
        !Spool.fits (some 0) d.svg) = true := by decide +kernel
  cases h : Layout.ofTrace oneTask with
  | error failure => rw [h] at hsome; cases hsome
  | ok layout =>
    simp only [h, Except.toOption, Option.any_some, Bool.and_eq_true, Bool.not_eq_true'] at hsome
    obtain ⟨hreported, hlong⟩ := hsome
    refine ⟨layout, rfl, ?_⟩
    intro d saved
    obtain ⟨hafter, hok | herror, -⟩ :=
      d.saveAt_file "/dev/full" Spool.usualBuffer ByteArray.empty (some 0)
    · have hnothing : Spool.firstBytes (some 0) d.svg = ByteArray.empty := by
        apply ByteArray.ext
        simp [Spool.firstBytes]
      refine ⟨hok, hafter.trans (by rw [hnothing]), fun hall => ?_⟩
      rw [hafter, Place.file.injEq, Spool.firstBytes_eq_iff] at hall
      exact absurd (hall.1.symm.trans hlong) Bool.true_eq_false.mp
    · rw [herror] at hreported
      cases hreported

end Drawing

end SpanChart
