import RenderLog.Sink.Stream

/-!
# What a device keeps of lines

A line goes to a device in chunks that depend on its directives and pieces. Where it is cut
makes no difference: the chunks together are the text, and a device that runs out of room
keeps the first bytes of what it is given, whatever the portions.

So the bytes kept of any sequence of lines are the first ones of their texts in a row, as many
as there is room for. A line succeeds when all lines through it fit and the flush does; as
every line has an end, none fits behind one that did not.
-/
namespace RenderLog

theorem flatten_leadChunk (c : Char) (chunks : List (List Char)) :
    (leadChunk c chunks).flatten = c :: chunks.flatten := by
  cases chunks <;> rfl

theorem flatten_formatChunks (cs : List Char) (args : List Arg) :
    (formatChunks cs args).flatten = displayFormat cs args := by
  fun_induction formatChunks cs args <;>
    simp_all [displayFormat, flatten_leadChunk]

/-- Pieces are handed on as they are joined. -/
theorem flatMap_intersperse (texts : List String) :
    (texts.intersperse " ").flatMap String.toList =
      [' '].intercalate (texts.map String.toList) := by
  match texts with
  | [] => rfl
  | [text] => simp
  | text :: next :: rest =>
      have htail := flatMap_intersperse (next :: rest)
      rw [List.intersperse_cons_cons, List.flatMap_cons, List.flatMap_cons, htail]
      simp [List.intercalate_cons_cons]

theorem Line.flatMap_chunks (l : Line) : l.chunks.flatMap String.toList = l.display.toList := by
  cases l with
  | styled format args =>
      rw [chunks, display, String.toList_ofList, ← flatten_formatChunks, List.flatMap_map]
      simp
  | plain pieces =>
      rw [chunks, display, String.toList_ofList, flatMap_intersperse, List.map_map]
      rfl

namespace Sink

theorem utf8_append (s t : String) : utf8 (s ++ t) = utf8 s ++ utf8 t := by
  simp [utf8]

/-- The text of a line and its end. -/
def bytes (l : Line) : List UInt8 := utf8 (l.display ++ "\n")

/-- What is put for a line is its text and its end. -/
theorem flatten_writes (l : Line) : (writes l).flatten = bytes l := by
  rw [writes, List.map_append, List.flatten_append, bytes, utf8_append]
  congr 1
  rw [← List.flatMap_def, utf8, ← l.flatMap_chunks, List.flatMap_assoc]
  rfl

theorem bytes_ne_nil (l : Line) : bytes l ≠ [] := by
  rw [bytes, utf8_append]
  exact List.append_ne_nil_of_right_ne_nil _ (by decide)

namespace Device

/-- So many more bytes can be taken. -/
def Fits (d : Device) (count : Nat) : Prop := ∀ room ∈ d.room, count ≤ room

instance Fits.decidable (d : Device) (count : Nat) : Decidable (d.Fits count) :=
  inferInstanceAs (Decidable (∀ room ∈ d.room, count ≤ room))

/-- The bytes that there is room for. -/
def accepted (d : Device) (bytes : List UInt8) : List UInt8 := d.room.elim bytes bytes.take

/-- The device after it was given bytes: what there is no room for is lost. -/
def filled (d : Device) (bytes : List UInt8) : Device :=
  {d with room := d.room.map (· - bytes.length), taken := d.taken ++ d.accepted bytes}

def fullError (d : Device) : WriteError := d.fullWords.elim .noProgress .refused

variable {d : Device} {bytes more : List UInt8}

theorem Fits.mono {count fewer : Nat} (h : d.Fits count) (hle : fewer ≤ count) : d.Fits fewer :=
  fun room hroom => Nat.le_trans hle (h room hroom)

@[simp] theorem filled_nil (d : Device) : d.filled [] = d := by
  obtain ⟨room, full, flush, taken⟩ := d
  cases room <;> simp [filled, accepted]

@[simp] theorem flush_filled (d : Device) (bytes : List UInt8) :
    (d.filled bytes).flush = d.flush := rfl

@[simp] theorem fullError_filled (d : Device) (bytes : List UInt8) :
    (d.filled bytes).fullError = d.fullError := rfl

theorem filled_filled (d : Device) (bytes more : List UInt8) :
    (d.filled bytes).filled more = d.filled (bytes ++ more) := by
  obtain ⟨room, full, flush, taken⟩ := d
  cases room with
  | none => simp [filled, accepted]
  | some room => simp [filled, accepted, List.take_append, Nat.sub_sub]

theorem fits_filled {count : Nat} (h : d.Fits bytes.length ∨ 0 < count) :
    (d.filled bytes).Fits count ↔ d.Fits (bytes.length + count) := by
  obtain ⟨room, full, flush, taken⟩ := d
  cases room with
  | none => simp [Fits, filled]
  | some room =>
      simp only [Fits, filled, Option.map_some, Option.mem_some_iff, forall_eq'] at h ⊢
      omega

theorem filled_of_full (h : d.room = some 0) (bytes : List UInt8) : d.filled bytes = d := by
  obtain ⟨room, full, flush, taken⟩ := d
  subst h
  simp [filled, accepted]

theorem exists_room_of_not_fits (h : ¬ d.Fits bytes.length) :
    ∃ room, d.room = some room ∧ room < bytes.length := by
  simpa [Fits] using h

theorem room_filled_of_not_fits (h : ¬ d.Fits bytes.length) : (d.filled bytes).room = some 0 := by
  obtain ⟨room, hroom, hlt⟩ := exists_room_of_not_fits h
  rw [filled, hroom, Option.map_some]
  exact congrArg some (Nat.sub_eq_zero_of_le (by omega))

theorem filled_append_of_not_fits (h : ¬ d.Fits bytes.length) (more : List UInt8) :
    d.filled (bytes ++ more) = d.filled bytes := by
  rw [← filled_filled, filled_of_full (room_filled_of_not_fits h)]

theorem accepted_of_fits (h : d.Fits bytes.length) : d.accepted bytes = bytes := by
  unfold accepted
  cases hroom : d.room with
  | none => rfl
  | some room => exact List.take_of_length_le (h room hroom)

theorem put_nil (d : Device) : d.put [] = (d, .ok ()) := by
  rw [put]
  rfl

theorem put_full (hd : d.room = some 0) (hb : bytes ≠ []) :
    d.put bytes = (d, .error d.fullError) := by
  rw [put, if_neg (by simpa using hb), offer, hd, fullError]
  cases d.fullWords <;> rfl

/-- As long as there is room, what fits of an offer is taken. -/
theorem offer_eq (hd : d.room ≠ some 0) (bytes : List UInt8) :
    d.offer bytes = (d.filled bytes, .ok (d.accepted bytes).length) := by
  obtain ⟨room, full, flush, taken⟩ := d
  cases room with
  | none => rfl
  | some room =>
      cases room with
      | zero => exact absurd rfl hd
      | succ room =>
          simp only [offer, filled, accepted, Option.map_some, Option.elim_some, List.length_take]
          congr 3
          omega

/-- A device without limit, or with as much room, takes all that is put. -/
theorem put_of_fits (h : d.Fits bytes.length) : d.put bytes = (d.filled bytes, .ok ()) := by
  by_cases hb : bytes = []
  · rw [hb, put_nil, filled_nil]
  · have hpos : 0 < bytes.length := List.length_pos_iff.mpr hb
    have hd : d.room ≠ some 0 := by
      intro hd
      have hle := h 0 hd
      omega
    obtain ⟨count, hcount⟩ := Nat.exists_eq_add_of_lt hpos
    rw [put, if_neg (by simpa using hb), offer_eq hd, accepted_of_fits h, hcount, Nat.zero_add]
    dsimp only
    rw [List.drop_of_length_le (by omega), put_nil]

/-- With less room a device takes as much as it has and is full. -/
theorem put_of_not_fits (h : ¬ d.Fits bytes.length) :
    d.put bytes = (d.filled bytes, .error d.fullError) := by
  obtain ⟨room, hroom, hlt⟩ := exists_room_of_not_fits h
  have hb : bytes ≠ [] := List.length_pos_iff.mp (by omega)
  cases room with
  | zero => rw [put_full hroom hb, filled_of_full hroom]
  | succ count =>
      have hd : d.room ≠ some 0 := by simp [hroom]
      have haccepted : (d.accepted bytes).length = count + 1 := by
        rw [accepted, hroom, Option.elim_some, List.length_take]
        omega
      have hdrop : bytes.drop (count + 1) ≠ [] := by
        rw [ne_eq, List.drop_eq_nil_iff]
        omega
      rw [put, if_neg (by simpa using hb), offer_eq hd, haccepted]
      dsimp only
      rw [put_full (room_filled_of_not_fits h) hdrop, fullError_filled]

/-- Bytes in portions are taken as they are in one. -/
theorem putAll_eq (d : Device) (portions : List (List UInt8)) :
    d.putAll portions = d.put portions.flatten := by
  induction portions generalizing d with
  | nil => rw [putAll, List.flatten_nil, put_nil]
  | cons bytes rest ih =>
      rw [putAll, List.flatten_cons]
      by_cases hbytes : d.Fits bytes.length
      · have hrest : (d.filled bytes).Fits rest.flatten.length ↔
            d.Fits (bytes ++ rest.flatten).length := by
          rw [fits_filled (.inl hbytes), List.length_append]
        rw [put_of_fits hbytes]
        dsimp only
        rw [ih]
        by_cases hall : d.Fits (bytes ++ rest.flatten).length
        · rw [put_of_fits hall, put_of_fits (hrest.mpr hall), filled_filled]
        · rw [put_of_not_fits hall, put_of_not_fits (mt hrest.mp hall), filled_filled,
            fullError_filled]
      · have hall : ¬ d.Fits (bytes ++ rest.flatten).length := by
          intro hf
          rw [List.length_append] at hf
          exact hbytes (hf.mono (Nat.le_add_right _ _))
        rw [put_of_not_fits hbytes, put_of_not_fits hall, filled_append_of_not_fits hbytes]

end Device

namespace Stream

/-- Writes lines one after another, and says what came of each. -/
def pushAll (s : Stream) (ls : List Line) : Stream × List (Except WriteError Unit) :=
  writeAll s ls

theorem pushAll_cons (s : Stream) (l : Line) (ls : List Line) :
    s.pushAll (l :: ls) =
      (((s.push l).1.pushAll ls).1, (s.push l).2 :: ((s.push l).1.pushAll ls).2) := rfl

/-- What comes of a line when so many bytes have to be taken through it. -/
def outcome (s : Stream) (count : Nat) : Except WriteError Unit :=
  if s.device.Fits count then s.device.flush else .error s.device.fullError

theorem push_eq (s : Stream) (l : Line) :
    s.push l = (⟨s.device.filled (bytes l)⟩, s.outcome (bytes l).length) := by
  rw [push, Device.putAll_eq, flatten_writes, outcome]
  by_cases h : s.device.Fits (bytes l).length
  · rw [Device.put_of_fits h, if_pos h]
    rfl
  · rw [Device.put_of_not_fits h, if_neg h]

theorem pushAll_device (s : Stream) (ls : List Line) :
    (s.pushAll ls).1 = ⟨s.device.filled (ls.flatMap bytes)⟩ := by
  induction ls generalizing s with
  | nil => rw [pushAll, writeAll, List.flatMap_nil, Device.filled_nil]
  | cons l ls ih =>
      rw [pushAll_cons, push_eq]
      dsimp only
      rw [ih, Device.filled_filled, List.flatMap_cons]

theorem length_pushAll (s : Stream) (ls : List Line) :
    (s.pushAll ls).2.length = ls.length := by
  induction ls generalizing s with
  | nil => rfl
  | cons l ls ih => exact congrArg (· + 1) (ih _)

/-- A line succeeds or fails by the bytes of all lines through it. -/
theorem getElem?_pushAll (s : Stream) {ls : List Line} {k : Nat} (hk : k < ls.length) :
    (s.pushAll ls).2[k]? = some (s.outcome ((ls.take (k + 1)).flatMap bytes).length) := by
  induction ls generalizing s k with
  | nil => cases hk
  | cons l ls ih =>
      rw [pushAll_cons, push_eq]
      dsimp only
      cases k with
      | zero => simp
      | succ k =>
          have hlt : k < ls.length := Nat.lt_of_succ_lt_succ hk
          have hpos : 0 < ((ls.take (k + 1)).flatMap bytes).length := by
            obtain ⟨first, rest, hls⟩ := List.exists_cons_of_length_pos (Nat.zero_lt_of_lt hlt)
            rw [hls, List.take_succ_cons, List.flatMap_cons, List.length_append]
            exact Nat.add_pos_left (List.length_pos_iff.mpr (bytes_ne_nil first)) _
          rw [List.getElem?_cons_succ, ih _ hlt, List.take_succ_cons, List.flatMap_cons,
            List.length_append, outcome, outcome]
          simp only [Device.fits_filled (.inr hpos), Device.flush_filled, Device.fullError_filled]

theorem fits_take (s : Stream) {ls : List Line} {i k : Nat} (hik : i ≤ k)
    (h : s.device.Fits ((ls.take k).flatMap bytes).length) :
    s.device.Fits ((ls.take i).flatMap bytes).length := by
  obtain ⟨more, hmore⟩ : ls.take i <+: ls.take k := List.take_prefix_take_left hik
  rw [← hmore, List.flatMap_append, List.length_append] at h
  exact h.mono (Nat.le_add_right _ _)

theorem pushAll_take (s : Stream) {ls : List Line} {i k : Nat} (hik : i ≤ k)
    (h : ¬ s.device.Fits ((ls.take i).flatMap bytes).length) :
    (s.pushAll (ls.take k)).1 = (s.pushAll (ls.take i)).1 := by
  obtain ⟨more, hmore⟩ : ls.take i <+: ls.take k := List.take_prefix_take_left hik
  rw [← hmore, pushAll_device, pushAll_device, List.flatMap_append,
    Device.filled_append_of_not_fits h]

theorem outcome_of_flush {s : Stream} {words : String} (h : s.device.flushWords = some words)
    (count : Nat) : ∃ e, s.outcome count = .error e := by
  rw [outcome, Device.flush, h]
  split
  · exact ⟨_, rfl⟩
  · exact ⟨_, rfl⟩

theorem outcome_eq_ok_iff (s : Stream) (count : Nat) :
    s.outcome count = .ok () ↔ s.device.Fits count ∧ s.device.flushWords = none := by
  rw [outcome, Device.flush]
  split
  · cases s.device.flushWords <;> simp [*]
  · simp [*]

/-- A device with room for so many bytes keeps the first ones of the texts of its lines. A line
succeeds exactly when all lines through it have room and the flush does not fail. Behind a line
that found no room every line fails and nothing more is kept. A failing flush fails every line and
changes nothing in what is kept. -/
theorem pushAll_keeps_prefix (room : Nat) (fullWords flushWords : Option String)
    (ls : List Line) :
    let s : Stream := ⟨⟨some room, fullWords, flushWords, []⟩⟩
    let through (k : Nat) : List UInt8 := (ls.take (k + 1)).flatMap bytes
    (s.pushAll ls).1.device.taken = (ls.flatMap bytes).take (min room (ls.flatMap bytes).length) ∧
      (s.pushAll ls).2.length = ls.length ∧
      (∀ k < ls.length, (s.pushAll ls).2[k]? = some (.ok ()) ↔
        (through k).length ≤ room ∧ flushWords = none) ∧
      (∀ i k, i < k → k < ls.length → room < (through i).length →
        (∃ e, (s.pushAll ls).2[k]? = some (.error e)) ∧
          (s.pushAll (ls.take (k + 1))).1 = (s.pushAll (ls.take (i + 1))).1) ∧
      (∀ words, flushWords = some words →
        (∀ k < ls.length, ∃ e, (s.pushAll ls).2[k]? = some (.error e)) ∧
          (s.pushAll ls).1.device.taken =
            (pushAll ⟨⟨some room, fullWords, none, []⟩⟩ ls).1.device.taken) := by
  intro s through
  have hfits (count : Nat) : s.device.Fits count ↔ count ≤ room := by simp [s, Device.Fits]
  refine ⟨?_, length_pushAll s ls, ?_, ?_, ?_⟩
  · rw [pushAll_device]
    simp [s, Device.filled, Device.accepted]
  · intro k hk
    rw [getElem?_pushAll s hk, Option.some_inj, outcome_eq_ok_iff, hfits]
  · intro i k hik hk hroom
    have hi : ¬ s.device.Fits (through i).length := by
      rw [hfits]
      omega
    have hk' : ¬ s.device.Fits (through k).length := mt (s.fits_take (by omega)) hi
    refine ⟨⟨s.device.fullError, ?_⟩, s.pushAll_take (by omega) hi⟩
    rw [getElem?_pushAll s hk, outcome, if_neg hk']
  · intro words hwords
    refine ⟨?_, ?_⟩
    · intro k hk
      obtain ⟨e, he⟩ := outcome_of_flush (s := s) hwords (through k).length
      exact ⟨e, by rw [getElem?_pushAll s hk, he]⟩
    · rw [pushAll_device, pushAll_device]
      rfl

/-- Room for the first line and two bytes of the second. -/
theorem pushAll_keeps_prefix_full :
    let ls : List Line := [.plain [.text "ab"], .styled "100%%" [], .plain []]
    let s : Stream := ⟨⟨some 5, some "closed", none, []⟩⟩
    (s.pushAll ls).1.device.taken = utf8 "ab\n10" ∧
      (s.pushAll ls).2[0]? = some (.ok ()) ∧
      (¬ (s.pushAll ls).2[1]? = some (.ok ())) ∧
      ∃ e, (s.pushAll ls).2[2]? = some (.error e) := by
  intro ls s
  obtain ⟨htaken, -, hresult, hbehind, -⟩ := pushAll_keeps_prefix 5 (some "closed") none ls
  refine ⟨htaken.trans ?_, ?_, ?_, ?_⟩
  · decide
  · exact (hresult 0 (by decide)).mpr (by decide)
  · exact mt (hresult 1 (by decide)).mp (by decide)
  · exact (hbehind 1 2 (by decide) (by decide) (by decide)).1

end Stream
end Sink
end RenderLog
