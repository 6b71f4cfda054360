import RenderLog.Proofs.Attachments
import RenderLog.Proofs.Inert
import RenderLog.Proofs.Observation

/-!
# Names in lines

The label of a named unit is a text with marks: the name between `<` and `/>`, and a
mark of code on either side. It is read like any other text, and the marks that the
name brings are read with it. The lines about a unit show its name as it is when each
mark of the name is inert there: a mark of bold or italic text must not follow a
boundary, and a mark of code must not precede one. Names of letters and digits have
no marks. A name that starts with an underscore loses it.
-/
namespace RenderLog

/-- The name as it is to be shown. -/
def labelText (name : String) : List Char := '<' :: name.toList ++ ['/', '>']

theorem toList_unitLabel {name : String} (h : name ≠ "") :
    (unitLabel (some name)).toList = '\x60' :: labelText name ++ ['\x60'] := by
  have he : name.isEmpty = false := by simpa using h
  simp [unitLabel, he, labelText]

theorem not_isSign_of_mem_natText {n : Nat} {c : Char} (h : c ∈ Number.natText n) :
    ¬ Markup.IsSign c := by
  have hdigit : c.isDigit = true := Nat.isDigit_of_mem_toDigits (by omega) (by omega) h
  rintro (rfl | rfl | rfl) <;> revert hdigit <;> decide

theorem not_isSign_of_mem_numberNote {n : Nat} {c : Char} (h : c ∈ (numberNote n).toList) :
    ¬ Markup.IsSign c := by
  have hopen : ∀ c ∈ " (".toList, ¬ Markup.IsSign c := by simp [Markup.IsSign]
  have hclose : ∀ c ∈ [')'], ¬ Markup.IsSign c := by simp [Markup.IsSign]
  rw [numberNote] at h
  split at h
  · simp at h
  · rw [String.toList_ofList, List.mem_append, List.mem_append] at h
    rcases h with (h | h) | h
    · exact hopen c h
    · exact not_isSign_of_mem_natText h
    · exact hclose c h

theorem head?_numberNote_append {n : Nat} {cs : List Char} (h : cs.head? = some ' ') :
    ((numberNote n).toList ++ cs).head? = some ' ' := by
  rw [numberNote]
  split
  · exact h
  · rw [String.toList_ofList]
    rfl

namespace Markup

def codeOpen : OpenMarkers := OpenMarkers.none.set .code true

/-- The marks of the name are inert inside the label. -/
def InertName (name : String) : Prop := Inert codeOpen '<' '/' (lexemes name.toList)

instance : DecidablePred InertName := fun name =>
  inferInstanceAs (Decidable (Inert codeOpen '<' '/' (lexemes name.toList)))

variable {name : String} {tail : List Char}

-- An underscore inside a word is inert, and one behind a bracket is not.
example : InertName "nav_bar" ∧ ¬ InertName "List<_>" := by decide

theorem events_label (name : String) (tail : List Char) :
    events .none ('\x60' :: labelText name ++ '\x60' :: tail) =
      .toggle .code true :: .literal '<' ::
        eventsAfter codeOpen (some '<') (lexemes name.toList ++
          .plain '/' :: .plain '>' :: .mark .code '\x60' :: lexemes tail) := by
  have hopen : ¬ IsSign '<' := by decide
  have hslash : ¬ IsSign '/' := by decide
  have hclose : ¬ IsSign '>' := by decide
  have htext : '\x60' :: labelText name ++ '\x60' :: tail =
      '\x60' :: '<' :: (name.toList ++ '/' :: '>' :: '\x60' :: tail) := by simp [labelText]
  have hcode (rest : List Lexeme) : eventsAfter .none none (.mark .code '\x60' :: rest) =
      .toggle .code true :: eventsAfter codeOpen none rest := rfl
  rw [events, htext, lexemes_code, lexemes_plain hopen, lexemes_append_cons hslash,
    lexemes_plain hclose, lexemes_code, hcode, eventsAfter]

/-- A label with an inert name is one stretch of code. -/
theorem events_label_of_inert (h : InertName name)
    (ht : tail.head? = some ' ') :
    events .none ('\x60' :: labelText name ++ '\x60' :: tail) =
      .toggle .code true :: ((labelText name).map .literal ++
        .toggle .code false :: eventsAfter .none none (lexemes tail)) := by
  have hend : eventsAfter codeOpen (some '>') (.mark .code '\x60' :: lexemes tail) =
      .toggle .code false :: eventsAfter .none none (lexemes tail) := by
    rw [eventsAfter, head?_lexemes, ht]
    rfl
  rw [events_label, eventsAfter_of_inert h, eventsAfter, hend, flatMap_chars_lexemes]
  simp [labelText]

theorem literals_labelEnd (ht : tail.head? = some ' ') (hs : ∀ c ∈ tail, ¬ IsSign c)
    (s : OpenMarkers) (prev : Option Char) :
    literals (eventsAfter s prev (.plain '/' :: .plain '>' :: .mark .code '\x60' :: lexemes tail)) =
      '/' :: '>' :: tail := by
  have hplain (s : OpenMarkers) : literals (eventsAfter s none (lexemes tail)) = tail := by
    rw [eventsAfter_of_forall hs, literals_map]
  have hmark : literals (eventsAfter s (some '>') (.mark .code '\x60' :: lexemes tail)) = tail := by
    rw [eventsAfter, head?_lexemes, ht]
    cases s.isOpen .code with
    | true => exact hplain _
    | false => exact hplain _
  exact congrArg (fun cs => '/' :: '>' :: cs) hmark

/-- In a label with another name a character is missing. -/
theorem length_literals_label_lt (h : ¬ InertName name)
    (ht : tail.head? = some ' ') (hs : ∀ c ∈ tail, ¬ IsSign c) :
    (literals (events .none ('\x60' :: labelText name ++ '\x60' :: tail))).length <
      (labelText name ++ tail).length := by
  have hlt := length_literals_lt
    (fun s prev => congrArg List.length (literals_labelEnd ht hs s prev)) h
  have hcount : (literals (events .none ('\x60' :: labelText name ++ '\x60' :: tail))).length =
      (literals (eventsAfter codeOpen (some '<') (lexemes name.toList ++
        .plain '/' :: .plain '>' :: .mark .code '\x60' :: lexemes tail))).length + 1 := by
    rw [events_label]
    rfl
  rw [flatMap_chars_lexemes, List.length_cons, List.length_cons] at hlt
  rw [hcount, labelText, List.length_append, List.length_append, List.length_cons]
  simp only [List.length_cons, List.length_nil]
  omega

/-- What events stand for on a console. -/
def eventSymbols (events : List Event) : List (Symbol Arg) :=
  (events.map Item.ofEvent).flatMap Item.console

theorem eventSymbols_append (first second : List Event) :
    eventSymbols (first ++ second) = eventSymbols first ++ eventSymbols second := by
  simp only [eventSymbols, List.map_append, List.flatMap_append]

theorem eventSymbols_map (cs : List Char) : eventSymbols (cs.map .literal) = cs.map .shown := by
  induction cs with
  | nil => rfl
  | cons c cs ih => exact congrArg (Symbol.shown c :: ·) ih

theorem eventSymbols_toggle (m : Marker) (on : Bool) (events : List Event) :
    eventSymbols (.toggle m on :: events) =
      .directive (.style ((Style.marker m).css on)) :: eventSymbols events := rfl

end Markup

/-- Symbols set off as code. -/
def inCode (word : List (Symbol Arg)) : List (Symbol Arg) :=
  .directive (.style ((Markup.Style.marker .code).css true)) :: word ++
    [.directive (.style ((Markup.Style.marker .code).css false))]

theorem Markup.eventSymbols_code (cs : List Char) (events : List Event) :
    eventSymbols (.toggle .code true :: (cs.map .literal ++ .toggle .code false :: events)) =
      inCode (cs.map .shown) ++ eventSymbols events := by
  simp [eventSymbols_toggle, eventSymbols_append, eventSymbols_map, inCode]

theorem joinStyles_inCode {word : List (Symbol Arg)} (hne : word ≠ [])
    (hw : ∀ s ∈ word, ∀ css, s ≠ .directive (.style css)) {cs : List Char} (hcs : cs ≠ [])
    (rest : List (Symbol Arg)) :
    joinStyles (inCode word ++ (cs.map .shown ++ rest)) =
      inCode word ++ (cs.map .shown ++ joinStyles rest) := by
  have hshown : ∀ s ∈ cs.map (Symbol.shown (α := Arg)), ∀ css, s ≠ .directive (.style css) := by
    simp
  have hend := Draft.joinStyles_style_append (mt List.map_eq_nil_iff.mp hcs) hshown
    ((Markup.Style.marker .code).css false) rest
  simp only [inCode, List.cons_append, List.append_assoc, List.nil_append]
  rw [Draft.joinStyles_style_append hne hw, hend]

/-- A line without changed values and without a call site is the reading of its segments. -/
theorem Message.typeset_console {m : Message} {rule : StylingRule} (h : rule m.values = false) :
    m.typeset .none none ⟨.console, rule⟩ =
      .ofSymbols (joinStyles (((Markup.cuesFrom 0 m.events).flatMap
        (Markup.Cue.items m.values .none)).flatMap Markup.Item.console)) := by
  rw [typeset_styled h, items_eq, Markup.bodySymbols, traceSymbols, shownTrace, Option.filter_none,
    Option.elim_none, List.append_nil]

theorem Message.typeset_ofText (text : String) {rule : StylingRule} (h : rule [] = false) :
    (Message.ofText text).typeset .none none ⟨.console, rule⟩ =
      .ofSymbols (joinStyles (Markup.eventSymbols (Markup.events .none text.toList))) := by
  rw [typeset_console (m := .ofText text) h]
  simp [events, ofText, Markup.eventsOfSegments, Markup.cuesFrom, Markup.flatMap_items_events,
    Markup.Cue.items, Markup.eventSymbols]

theorem Message.typeset_around (first second : String) {v : Value} {rule : StylingRule}
    (h : rule [v] = false) :
    (⟨[first, second], [v]⟩ : Message).typeset .none none ⟨.console, rule⟩ =
      .ofSymbols (joinStyles (Markup.eventSymbols (Markup.events .none first.toList) ++
        (v.symbols ++ Markup.eventSymbols
          (Markup.events (Markup.OpenMarkers.none.after (Markup.events .none first.toList))
            second.toList)))) := by
  rw [typeset_console (m := ⟨[first, second], [v]⟩) h]
  simp [events, Markup.eventsOfSegments, Markup.cuesFrom, Markup.flatMap_items_events,
    Markup.Cue.items, Markup.eventSymbols, Markup.Item.ofValue, Markup.Item.console]

namespace Entry

def propsLead (n : Nat) : List Char :=
  (numberNote n).toList ++ " rendered with props: ".toList

/-- The symbols of a console line about a unit with the name: the label is set off as code, and so
are the props. -/
def namedSymbols (name : String) : Entry → List (Symbol Arg)
  | .rendered _ n props =>
    inCode ((labelText name).map .shown) ++
      ((propsLead n).map .shown ++ (inCode props.symbols ++ [.shown '.']))
  | .mounted _ n =>
    inCode ((labelText name).map .shown) ++
      ((numberNote n).toList ++ " mounted.".toList).map .shown
  | .unmounted _ n =>
    inCode ((labelText name).map .shown) ++
      ((numberNote n).toList ++ " unmounted.".toList).map .shown
  | .logged _ _ _ => []

def namedText (name : String) : Entry → List Char
  | .rendered _ n props =>
    labelText name ++ propsLead n ++ props.shownText ++ ['.']
  | .mounted _ n => labelText name ++ (numberNote n).toList ++ " mounted.".toList
  | .unmounted _ n => labelText name ++ (numberNote n).toList ++ " unmounted.".toList
  | .logged _ _ _ => []

theorem flatMap_text_inCode (word : List (Symbol Arg)) :
    (inCode word).flatMap Symbol.text = word.flatMap Symbol.text := by
  simp [inCode, Symbol.text]

theorem flatMap_text_namedSymbols (name : String) (e : Entry) :
    (e.namedSymbols name).flatMap Symbol.text = e.namedText name := by
  cases e with
  | rendered label n props =>
      simp only [namedSymbols, namedText, List.flatMap_append, flatMap_text_inCode,
        flatMap_text_shown, Value.flatMap_text_symbols]
      simp [Symbol.text]
  | mounted label n =>
      simp only [namedSymbols, namedText, List.flatMap_append, flatMap_text_inCode,
        flatMap_text_shown, List.append_assoc]
  | unmounted label n =>
      simp only [namedSymbols, namedText, List.flatMap_append, flatMap_text_inCode,
        flatMap_text_shown, List.append_assoc]
  | logged m highlights trace => rfl

end Entry

section Label
variable {name : String} {n : Nat}

theorem joinStyles_label (name : String) {cs : List Char} (hcs : cs ≠ [])
    (rest : List (Symbol Arg)) :
    joinStyles (inCode ((labelText name).map .shown) ++ (cs.map .shown ++ rest)) =
      inCode ((labelText name).map .shown) ++ (cs.map .shown ++ joinStyles rest) :=
  joinStyles_inCode (by simp [labelText]) (by simp) hcs rest

theorem toList_sentence (hname : name ≠ "") (n : Nat) (sentence : String) :
    (unitLabel (some name) ++ numberNote n ++ sentence).toList =
      '\x60' :: labelText name ++ '\x60' :: ((numberNote n).toList ++ sentence.toList) := by
  simp [toList_unitLabel hname]

theorem not_isSign_of_mem_sentence {cs : List Char} (h : ∀ c ∈ cs, ¬ Markup.IsSign c) :
    ∀ c ∈ (numberNote n).toList ++ cs, ¬ Markup.IsSign c :=
  fun c hc => (List.mem_append.mp hc).elim not_isSign_of_mem_numberNote (h c)

/-- The label of an inert name is set off as code, in front of a sentence without marks. -/
theorem typeset_label (hname : name ≠ "") (h : Markup.InertName name) (n : Nat)
    {sentence : String} (ht : sentence.toList.head? = some ' ')
    (hs : ∀ c ∈ sentence.toList, ¬ Markup.IsSign c) {rule : StylingRule} (hr : rule [] = false) :
    (Message.ofText (unitLabel (some name) ++ numberNote n ++ sentence)).typeset .none none
        ⟨.console, rule⟩ =
      .ofSymbols (inCode ((labelText name).map .shown) ++
        ((numberNote n).toList ++ sentence.toList).map .shown) := by
  have hhead := head?_numberNote_append (n := n) ht
  have hne : (numberNote n).toList ++ sentence.toList ≠ [] := by
    intro he
    rw [he] at hhead
    cases hhead
  have hjoin := joinStyles_label name hne []
  rw [List.append_nil] at hjoin
  rw [Message.typeset_ofText _ hr, toList_sentence hname, Markup.events_label_of_inert h hhead,
    Markup.eventsAfter_of_forall (not_isSign_of_mem_sentence hs), Markup.eventSymbols_code,
    Markup.eventSymbols_map, hjoin]
  simp [joinStyles]

theorem events_rendered (hname : name ≠ "") (h : Markup.InertName name) (n : Nat) :
    Markup.events .none
        (unitLabel (some name) ++ numberNote n ++ " rendered with props: \x60").toList =
      .toggle .code true :: ((labelText name).map .literal ++ .toggle .code false ::
        ((Entry.propsLead n).map .literal ++ [.toggle .code true])) := by
  have hs : ∀ c ∈ Entry.propsLead n, ¬ Markup.IsSign c := by
    apply not_isSign_of_mem_sentence
    simp [Markup.IsSign]
  have htext : (numberNote n).toList ++ " rendered with props: \x60".toList =
      Entry.propsLead n ++ ['\x60'] := by simp [Entry.propsLead]
  have hhead : (Entry.propsLead n ++ ['\x60']).head? = some ' ' := by
    rw [← htext]
    exact head?_numberNote_append rfl
  have hlast : (Entry.propsLead n).getLast? = some ' ' := by
    rw [Entry.propsLead, List.getLast?_append]
    rfl
  rw [toList_sentence hname, htext, Markup.events_label_of_inert h hhead,
    Markup.lexemes_append_of_forall hs, Markup.eventsAfter_plain, hlast]
  rfl

theorem after_rendered (first second : List Char) :
    Markup.OpenMarkers.none.after (.toggle .code true :: (first.map .literal ++
      .toggle .code false :: (second.map .literal ++ [.toggle .code true]))) =
        Markup.codeOpen := by
  have hstep (s : Markup.OpenMarkers) (e : Markup.Event) (es : List Markup.Event) :
      s.after (e :: es) = (s.step e).after es := rfl
  rw [hstep, Markup.OpenMarkers.after_literals, hstep, Markup.OpenMarkers.after_literals]
  rfl

theorem joinStyles_rendered (name : String) (n : Nat) (props : Value) :
    joinStyles (inCode ((labelText name).map .shown) ++
        ((Entry.propsLead n).map .shown ++ (inCode props.symbols ++ [.shown '.']))) =
      inCode ((labelText name).map .shown) ++
        ((Entry.propsLead n).map .shown ++ (inCode props.symbols ++ [.shown '.'])) := by
  have hlead : Entry.propsLead n ≠ [] := by simp [Entry.propsLead]
  have hprops := joinStyles_inCode props.symbols_ne_nil (fun _ => Value.ne_style_of_mem_symbols)
    (List.cons_ne_nil '.' []) []
  rw [joinStyles_label name hlead]
  exact congrArg (fun rest => _ ++ (_ ++ rest)) hprops

/-- The props of a unit with an inert name are set off as code behind its label. -/
theorem typeset_rendered (hname : name ≠ "") (h : Markup.InertName name) (n : Nat)
    {props : Value} {rule : StylingRule} (hr : rule [props] = false) :
    (Entry.rendered (unitLabel (some name)) n props).typeset ⟨.console, rule⟩ =
      .ofSymbols (inCode ((labelText name).map .shown) ++
        ((Entry.propsLead n).map .shown ++ (inCode props.symbols ++ [.shown '.']))) := by
  have hmessage : (Entry.rendered (unitLabel (some name)) n props).typeset ⟨.console, rule⟩ = _ :=
    Message.typeset_around _ _ hr
  have hlast : Markup.eventSymbols (Markup.events Markup.codeOpen "\x60.".toList) =
      [.directive (.style ((Markup.Style.marker .code).css false)), .shown '.'] := rfl
  rw [hmessage, events_rendered hname h, after_rendered, hlast, Markup.eventSymbols_code,
    Markup.eventSymbols_append, Markup.eventSymbols_map, Markup.eventSymbols_toggle,
    ← joinStyles_rendered]
  simp [inCode, Markup.eventSymbols]

/-- The lines of the life of a reporter with an inert name. -/
theorem typeset_life {p : Reporter} {r : Registry} {step : Step} {e : Entry} (hname : name ≠ "")
    (h : Markup.InertName name) (hp : p.label = unitLabel (some name))
    (he : e ∈ (p.act r step).entries) (hlife : e.tellsLife = true) {rule : StylingRule}
    (hr : rule e.message.values = false) :
    e.typeset ⟨.console, rule⟩ = .ofSymbols (e.namedSymbols name) := by
  rcases Reporter.life_cases he hlife with ⟨n, props, rfl⟩ | ⟨n, rfl⟩ | ⟨n, rfl⟩
  · rw [hp]
    exact typeset_rendered hname h n hr
  · rw [hp]
    exact typeset_label hname h n rfl (by simp [Markup.IsSign]) hr
  · rw [hp]
    exact typeset_label hname h n rfl (by simp [Markup.IsSign]) hr

end Label

/-- On a console that styles them, the lines of the life of a unit with this name show the name as
it is, in a label that is set off as code, whatever the reporter and the others have done. -/
def KeepsName (name : String) : Prop :=
  ∀ {σ : Type} [Sink σ] (s : Session σ) (id : ReporterId) (channel : Channel) (a : Activation)
    (steps : List (ReporterId × Step)) (step : Step), a.name = some name →
      channel.screen.medium = .console →
      (∀ step ∈ ownSteps steps id, step.isAttach = false) →
      ∀ d ∈ ((s.after ((id, .attach (.enabled channel) a) :: steps)).perform id step).2.deliveries,
        d.entry.tellsLife = true → channel.screen.refuses d.entry.message.values = false →
        d.line = .ofSymbols (d.entry.namedSymbols name) ∧
          d.line.display = String.ofList (d.entry.namedText name)

theorem keepsName_of_inert {name : String} (hname : name ≠ "") (h : Markup.InertName name) :
    KeepsName name := by
  intro σ _ s id channel a steps step ha hmedium hown d hd hlife hr
  obtain ⟨p, hw, hp⟩ := s.recalls_after id channel a hown
  have hstep : ∀ logger b, step ≠ .attach logger b := by
    rintro logger b rfl
    exact (List.not_mem_nil hd).elim
  have hsends := Session.perform_sends hw hstep
  have hentry : d.entry ∈ Reply.entries _ := List.mem_map_of_mem hd
  rw [hsends.entries_eq] at hentry
  have hlabel : p.label = unitLabel (some name) := by rw [hp.isOf.label, ha]
  have hscreen : channel.screen = ⟨.console, channel.screen.refuses⟩ := by rw [← hmedium]
  have hline : d.line = .ofSymbols (d.entry.namedSymbols name) := by
    rw [(hsends.sent d hd).2, ← Entry.typeset_eq_shown, hscreen]
    exact typeset_life hname h hlabel hentry hlife hr
  refine ⟨hline, ?_⟩
  rw [hline, Line.display_ofSymbols, Entry.flatMap_text_namedSymbols]

/-- The console, the registry of the process and the first sink. -/
def Channel.console : Channel := ⟨.console, .process, 0⟩

def Activation.ofName (name : String) : Activation := ⟨.token 0, some name, []⟩

/-- What the first mount of a unit shows when its name is kept. -/
theorem display_of_keepsName {name : String} (h : KeepsName name) :
    ((Entry.mounted (unitLabel (some name)) 0).typeset .console).display =
      String.ofList ((Entry.mounted (unitLabel (some name)) 0).namedText name) := by
  have hown : ∀ step ∈ ownSteps [] "a", step.isAttach = false := by simp [ownSteps]
  have hmount : ∀ logger b, Step.mount ≠ .attach logger b := by simp
  have hw : ((Session.start memories).after
      [("a", .attach (.enabled .console) (.ofName name))]).Works "a" .console
        (.ofActivation (.ofName name) .empty ⟨0⟩) := rfl
  have hsends := Session.perform_sends hw hmount
  have hentries : Reply.entries _ = [.mounted (unitLabel (some name)) 0] := hsends.entries_eq
  obtain ⟨d, hd, he⟩ := List.mem_map.mp (hentries ▸ List.mem_singleton_self _)
  have hkeeps := h (Session.start memories) "a" .console (.ofName name) [] .mount rfl rfl hown d hd
    (by rw [he]; rfl) rfl
  rw [(hsends.sent d hd).2, ← Entry.typeset_eq_shown, he] at hkeeps
  exact hkeeps.2

/-- A name that starts with a mark loses it: the label of `_App` is shown as `<App/>`. -/
theorem not_keepsName_underscore : ¬ KeepsName "_App" := by
  intro h
  have hd := display_of_keepsName h
  revert hd
  decide

/-- A message without values is shown as the characters among its events. -/
theorem display_ofText (text : String) :
    ((Message.ofText text).typeset .none none .console).display =
      String.ofList (Markup.literals (Markup.events .none text.toList)) := by
  have hevents : (Message.ofText text).events = [Markup.events .none text.toList] := rfl
  have hplace : (shownTrace none).elim [] traceText = [] := rfl
  rw [Screen.console, Message.display_styled rfl, hevents, hplace, List.map_singleton,
    List.append_nil]
  exact congrArg String.ofList (shownText_singleton _)

/-- A name is kept when there is one and its marks are inert in the label, and only then. -/
theorem keepsName_iff (name : String) :
    KeepsName name ↔ name ≠ "" ∧ Markup.InertName name := by
  constructor
  · intro h
    have hdisplay := display_of_keepsName h
    have hname : name ≠ "" := by
      rintro rfl
      revert hdisplay
      decide
    refine ⟨hname, ?_⟩
    by_contra hinert
    -- A line with the label is shorter than the text that the name calls for.
    have hsigns : ∀ c ∈ " mounted.".toList, ¬ Markup.IsSign c := by simp [Markup.IsSign]
    have hlt := Markup.length_literals_label_lt hinert rfl hsigns
    have hline : ((Entry.mounted (unitLabel (some name)) 0).typeset .console).display = _ :=
      display_ofText (unitLabel (some name) ++ numberNote 0 ++ " mounted.")
    have hnote : (numberNote 0).toList = [] := rfl
    have hcs := String.ofList_injective (hline.symm.trans hdisplay)
    rw [toList_sentence hname, hnote, List.nil_append, Entry.namedText, hnote,
      List.append_nil] at hcs
    have hlength := congrArg List.length hcs
    omega
  · exact fun h => keepsName_of_inert h.1 h.2

end RenderLog
