import RenderLog.Proofs.Spans

/-!
# Marks inside words

A mark between two characters of words switches nothing, whatever markers are open: it
has no boundary before it to open at and none behind it to close at. Two marks cannot
stand there side by side. A sign is a boundary itself, so the first of them closes its
marker when that is open, and the second opens its own when that is closed.

A segment is written as it stands in every state exactly when each run of signs in it is
one mark inside a word.
-/
namespace RenderLog.Markup

section Definitions

/-- Signs in a text that go on to neither side, with what stands before and behind them. -/
structure SignRun (front run back : List Char) : Prop where
  ne_nil : run ≠ []
  signs : ∀ c ∈ run, IsSign c
  starts : ∀ c, front.getLast? = some c → ¬ IsSign c
  ends : ∀ c, back.head? = some c → ¬ IsSign c

/-- Every run of signs is one mark with a character on either side that is no boundary. -/
def Intraword (cs : List Char) : Prop :=
  ∀ front run back, cs = front ++ (run ++ back) → SignRun front run back →
    (∃ m : Marker, run ∈ m.spellings) ∧
      isBoundary front.getLast? = false ∧ isBoundary back.head? = false

/-- With some markers open a segment is written as it stands: nothing is switched, the same
markers are open behind it, and every plain line and every draft takes up all of its text. -/
structure Verbatim (s : OpenMarkers) (cs : List Char) : Prop where
  events_eq : events s cs = cs.map .literal
  after_eq : s.after (events s cs) = s
  plain : literals (events s cs) = cs
  styled : ∀ (medium : Medium) (d : Draft), cs ≠ [] →
    ((events s cs).map Item.ofEvent).foldl (Draft.item medium) d = d.text cs

end Definitions

section Drafts
variable {s : OpenMarkers} {cs : List Char}

theorem escapePercent_append (first second : List Char) :
    Draft.escapePercent (first ++ second) =
      Draft.escapePercent first ++ Draft.escapePercent second := List.flatMap_append

theorem held_text (d : Draft) (cs : List Char) : (d.text cs).held = none := by
  unfold Draft.text Draft.flush
  cases h : d.held with
  | none => exact h
  | some css => rfl

theorem text_text (d : Draft) (first second : List Char) :
    (d.text first).text second = d.text (first ++ second) := by
  have hflush : (d.text first).flush = d.text first := by
    rw [Draft.flush, held_text]
  rw [Draft.text, hflush]
  simp only [Draft.text, escapePercent_append, String.ofList_append, String.append_assoc]

theorem foldl_item_literals (medium : Medium) (d : Draft) (h : cs ≠ []) :
    ((cs.map Event.literal).map Item.ofEvent).foldl (Draft.item medium) d = d.text cs := by
  induction cs generalizing d with
  | nil => exact (h rfl).elim
  | cons c cs ih =>
      by_cases hcs : cs = []
      · rw [hcs]
        rfl
      · have hrest := ih (d.text [c]) hcs
        rw [text_text] at hrest
        exact hrest

theorem Verbatim.of_scans (h : Scans s none cs (cs.map .literal) s) : Verbatim s cs := by
  obtain ⟨hevents, hafter⟩ := scans_iff.mp h
  have he : events s cs = cs.map .literal := hevents.symm
  refine ⟨he, ?_, ?_, ?_⟩
  · rw [he]
    exact hafter.symm
  · rw [he, literals_map]
  · intro medium d hcs
    rw [he]
    exact foldl_item_literals medium d hcs

theorem Verbatim.scans (h : Verbatim s cs) : Scans s none cs (cs.map .literal) s := by
  have hafter := h.after_eq
  rw [h.events_eq] at hafter
  apply scans_iff.mpr
  exact ⟨h.events_eq.symm, hafter.symm⟩

end Drafts

section Words
variable {s t : OpenMarkers} {prev : Option Char} {m : Marker}
  {cs front run back mark rest : List Char} {events : List Event} {c : Char}

theorem isBoundary_of_isSign (h : IsSign c) : isBoundary (some c) = true := by
  rcases h with rfl | rfl | rfl <;> decide

theorem Mark.signs (h : Mark m mark rest) : ∀ c ∈ mark, IsSign c := by
  intro c hc
  cases h with
  | bold hs =>
      obtain rfl : c = _ := by simpa using hc
      exact or_assoc.mp (.inl hs)
  | italic hs _ =>
      rw [List.mem_singleton.mp hc]
      exact or_assoc.mp (.inl hs)
  | code =>
      rw [List.mem_singleton.mp hc]
      exact .inr (.inr rfl)

theorem Mark.mem_spellings (h : Mark m mark rest) : mark ∈ m.spellings := by
  cases h with
  | bold hs => rcases hs with rfl | rfl <;> decide
  | italic hs _ => rcases hs with rfl | rfl <;> decide
  | code => decide

theorem run_cases (cs : List Char) :
    cs = [] ∨ (∃ c rest, cs = c :: rest ∧ ¬ IsSign c) ∨
      ∃ run rest, cs = run ++ rest ∧ run ≠ [] ∧ (∀ c ∈ run, IsSign c) ∧
        ∀ c, rest.head? = some c → ¬ IsSign c := by
  cases cs with
  | nil => exact .inl rfl
  | cons c cs =>
      right
      by_cases hc : IsSign c
      · right
        refine ⟨(c :: cs).takeWhile IsSign, (c :: cs).dropWhile IsSign, ?_, ?_, ?_, ?_⟩
        · exact List.takeWhile_append_dropWhile.symm
        · simp [hc]
        · intro d hd
          simpa using List.all_eq_true.mp List.all_takeWhile d hd
        · intro d hd
          have hnot := List.head?_dropWhile_not (fun d => decide (IsSign d)) (c :: cs)
          rw [hd] at hnot
          simpa using hnot
      · exact .inl ⟨c, cs, rfl, hc⟩

theorem SignRun.exists_mark (h : SignRun front run back) :
    ∃ m mark rest, run ++ back = mark ++ rest ∧ Mark m mark rest := by
  obtain ⟨c, run, rfl⟩ := List.exists_cons_of_ne_nil h.ne_nil
  rcases text_cases (c :: run ++ back) with
    hnil | ⟨d, rest, hplain, hd⟩ | ⟨m, mark, rest, he, -, hm⟩
  · cases hnil
  · obtain ⟨rfl, -⟩ := List.cons.inj hplain
    exact (hd (h.signs c List.mem_cons_self)).elim
  · exact ⟨m, mark, rest, he, hm⟩

/-- From any place that is not between two signs, a text with its marks inside words is read
as it stands. -/
theorem Intraword.scans (h : Intraword cs) (s : OpenMarkers) (hcs : cs = front ++ back)
    (hcut : ∀ c, front.getLast? = some c → IsSign c →
      ∀ d, back.head? = some d → ¬ IsSign d) :
    Scans s front.getLast? back (back.map .literal) s := by
  induction hn : back.length using Nat.strongRecOn generalizing front back with
  | ind n ih =>
      subst hn
      rcases run_cases back with rfl | ⟨c, rest, rfl, hc⟩ | ⟨run, rest, rfl, hne, hrun, hrest⟩
      · exact .done
      · have hlast : (front ++ [c]).getLast? = some c := List.getLast?_concat
        have hplain : Scans s (front ++ [c]).getLast? rest (rest.map .literal) s := by
          apply ih rest.length (Nat.lt_succ_self _) (by simp [hcs]) _ rfl
          intro d hd hsign
          rw [hlast] at hd
          exact (hc (Option.some.inj hd ▸ hsign)).elim
        rw [hlast] at hplain
        exact .plain hc hplain
      · have hstarts (c : Char) (hfront : front.getLast? = some c) : ¬ IsSign c := by
          intro hsign
          obtain ⟨d, run, rfl⟩ := List.exists_cons_of_ne_nil hne
          exact hcut c hfront hsign d rfl (hrun d List.mem_cons_self)
        obtain ⟨⟨m, hm⟩, hbefore, hbehind⟩ := h front run rest hcs ⟨hne, hrun, hstarts, hrest⟩
        have hlast : (front ++ run).getLast? = run.getLast? := by
          rw [List.getLast?_append, List.getLast?_eq_some_getLast hne]
          rfl
        have hlt : rest.length < (run ++ rest).length := by
          have := List.length_pos_iff.mpr hne
          rw [List.length_append]
          omega
        have htail : Scans s (front ++ run).getLast? rest (rest.map .literal) s :=
          ih rest.length hlt (by simp [hcs]) (fun _ _ _ => hrest) rfl
        rw [hlast] at htail
        rw [List.map_append]
        apply Scans.literal (Mark.of_mem_spellings hm hrest) _ _ htail
        · exact fun _ => hbehind
        · exact fun _ => hbefore

theorem toggle_ne_literals {on : Bool} (h : .toggle m on :: events = cs.map .literal) : False := by
  have hmem : Event.toggle m on ∈ cs.map Event.literal := by
    rw [← h]
    exact List.mem_cons_self
  obtain ⟨c, -, hc⟩ := List.mem_map.mp hmem
  cases hc

/-- A mark that is read as it stands has no boundary where it could switch. -/
theorem Scans.mark_inert (h : Scans s prev (mark ++ rest) ((mark ++ rest).map .literal) t)
    (hm : Mark m mark rest) :
    (s.isOpen m = true → isBoundary rest.head? = false) ∧
      (s.isOpen m = false → isBoundary prev = false) := by
  obtain ⟨c, -, hl⟩ := hm.lexemes
  have hevents := (scans_iff.mp h).1
  rw [hl, eventsAfter, head?_lexemes] at hevents
  constructor
  · intro ho
    cases hb : isBoundary rest.head? with
    | false => rfl
    | true =>
        rw [ho, hb, Bool.and_self, if_pos rfl] at hevents
        exact (toggle_ne_literals hevents.symm).elim
  · intro ho
    cases hb : isBoundary prev with
    | false => rfl
    | true =>
        rw [ho, hb, if_neg (by simp), Bool.not_false, Bool.and_self, if_pos rfl] at hevents
        exact (toggle_ne_literals hevents.symm).elim

/-- A whole mark in front of a place is either all of the text there or a part of it. -/
theorem Mark.cut (hm : Mark m mark rest) (hne : front ≠ []) (h : mark ++ rest = front ++ back)
    (hcut : ∀ c, front.getLast? = some c → IsSign c → ∀ d, back.head? = some d → ¬ IsSign d) :
    ∃ more, front = mark ++ more ∧ rest = more ++ back := by
  rcases List.append_eq_append_iff.mp h with hmore | ⟨inner, hmark, hback⟩
  · exact hmore
  · cases inner with
    | nil =>
        rw [List.append_nil] at hmark
        rw [List.nil_append] at hback
        exact ⟨[], by simp [hmark], by simp [hback]⟩
    | cons d inner =>
        have hsign (c : Char) (hc : c ∈ front ++ d :: inner) : IsSign c :=
          hm.signs c (hmark ▸ hc)
        have hlast := List.getLast?_eq_some_getLast hne
        have hfront := hsign _ (List.mem_append_left _ (List.getLast_mem hne))
        apply absurd (hsign d (by simp))
        apply hcut _ hlast hfront
        rw [hback]
        rfl

/-- Text that is read as it stands is read so from any place that is not between two signs. -/
theorem Scans.drop_literals (h : Scans s prev cs events t) (he : events = cs.map .literal)
    (hcs : cs = front ++ back)
    (hcut : ∀ c, front.getLast? = some c → IsSign c → ∀ d, back.head? = some d → ¬ IsSign d) :
    Scans s (front.getLast?.or prev) back (back.map .literal) t := by
  induction h generalizing front with
  | done =>
      obtain ⟨rfl, rfl⟩ := List.append_eq_nil_iff.mp hcs.symm
      exact .done
  | @plain s t prev c rest events hc hscan ih =>
      cases front with
      | nil =>
          rw [List.nil_append] at hcs
          rw [← hcs, ← he]
          exact .plain hc hscan
      | cons d front =>
          obtain ⟨rfl, hrest⟩ := List.cons.inj hcs
          have hlast : ([c] ++ front).getLast? = front.getLast?.or (some c) :=
            List.getLast?_append
          rw [← List.singleton_append, hlast, Option.or_assoc]
          apply ih (List.cons.inj he).2 hrest
          intro d hd
          apply hcut d
          rw [← List.singleton_append, hlast, hd]
          rfl
  | close _ _ _ _ _ => exact (toggle_ne_literals he).elim
  | opening _ _ _ _ _ => exact (toggle_ne_literals he).elim
  | @literal s t prev m mark rest events hm hclose hopen hscan ih =>
      by_cases hne : front = []
      · rw [hne, List.nil_append] at hcs
        rw [hne, ← hcs, ← he]
        exact .literal hm hclose hopen hscan
      · obtain ⟨more, rfl, hrest⟩ := hm.cut hne hcs hcut
        have hevents : events = rest.map .literal := by
          rw [List.map_append] at he
          exact List.append_cancel_left he
        have hlast : (mark ++ more).getLast? = more.getLast?.or mark.getLast? :=
          List.getLast?_append
        have hsome := List.getLast?_eq_some_getLast hm.ne_nil
        rw [hlast, Option.or_assoc, hsome, Option.some_or, ← hsome]
        apply ih hevents hrest
        intro d hd
        apply hcut d
        rw [hlast, hd]
        rfl

/-- A segment is written as it stands, whatever markers are open, exactly when every run of signs
in it is one mark inside a word. -/
theorem intraword_iff_verbatim (cs : List Char) : Intraword cs ↔ ∀ s, Verbatim s cs := by
  constructor
  · intro h s
    have hscan : Scans s ([] : List Char).getLast? cs (cs.map .literal) s := by
      apply h.scans s rfl
      simp
    exact Verbatim.of_scans hscan
  · intro h front run back hcs hrun
    have htail (s : OpenMarkers) :
        Scans s (front.getLast?.or none) (run ++ back) ((run ++ back).map .literal) s :=
      (h s).scans.drop_literals rfl hcs fun c hc hsign => (hrun.starts c hc hsign).elim
    obtain ⟨m, mark, rest, hsplit, hm⟩ := hrun.exists_mark
    rw [hsplit, Option.or_none] at htail
    have hbehind := ((htail ⟨true, true, true⟩).mark_inert hm).1 (by cases m <;> rfl)
    have hbefore := ((htail .none).mark_inert hm).2 (OpenMarkers.isOpen_none m)
    have hrest (c : Char) (hc : rest.head? = some c) : ¬ IsSign c := by
      intro hsign
      rw [hc, isBoundary_of_isSign hsign] at hbehind
      cases hbehind
    obtain ⟨rfl, rfl⟩ := run_append_inj hrun.signs hm.signs hrun.ends hrest hsplit
    exact ⟨⟨m, hm.mem_spellings⟩, hbefore, hbehind⟩

-- A name keeps its underscores while italic text is open, and a doubled sign its two characters.
example : Markup.events ⟨false, true, false⟩ "file_name x**y it\x60s".toList =
    "file_name x**y it\x60s".toList.map .literal := by decide

end Words

end RenderLog.Markup
