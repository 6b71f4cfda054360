import RenderLog.Proofs.Outline
import RenderLog.Proofs.Switches

/-!
# Styles that meet

A console line is made as though each switch of a style had a directive of its own. Then
the directives that stand side by side are made one, with their styles in order, and the
call site with its own directive is put behind that.

So the same is shown as with single directives, and between any two things that are shown
the same styles are set. Only the directive of the call site can have another one beside it.
-/
namespace RenderLog

def Symbol.style? (s : Symbol Arg) : Option String := s.directive?.bind Arg.style?

@[simp] theorem Symbol.style?_shown (c : Char) : (shown c).style? = none := rfl

@[simp] theorem Symbol.style?_style (css : String) :
    (directive (.style css)).style? = some css := rfl

@[simp] theorem Symbol.style?_object (o : Object) : (directive (.object o)).style? = none := rfl

theorem Symbol.style?_eq_none_iff {s : Symbol Arg} :
    s.style? = none ↔ ∀ css, s ≠ .directive (.style css) := by
  constructor
  · rintro h css rfl
    cases h
  · intro h
    match s with
    | .shown _ | .directive (.object _) => rfl
    | .directive (.style css) => exact (h css rfl).elim

theorem Symbol.eq_of_style? {s : Symbol Arg} {css : String} (h : s.style? = some css) :
    s = .directive (.style css) := by
  match s with
  | .shown _ | .directive (.object _) => cases h
  | .directive (.style _) =>
      cases h
      rfl

theorem Symbol.style?_ne_none {s : Symbol Arg} (h : s.map Arg.directive = .directive .style) :
    s.style? ≠ none := by
  match s with
  | .shown _ | .directive (.object _) => cases h
  | .directive (.style css) => exact Option.some_ne_none css

/-- Each run of styles, as long as it goes on, becomes one style; nothing else is changed. -/
inductive Fuses : List (Symbol Arg) → List (Symbol Arg) → Prop
  | done : Fuses [] []
  | other {s : Symbol Arg} {rest fused : List (Symbol Arg)} : s.style? = none →
      Fuses rest fused → Fuses (s :: rest) (s :: fused)
  | run {styles : List String} {rest fused : List (Symbol Arg)} : styles ≠ [] →
      (∀ s, rest.head? = some s → s.style? = none) → Fuses rest fused →
      Fuses (styles.map (fun css => .directive (.style css)) ++ rest)
        (.directive (.style (String.join styles)) :: fused)

/-- What is shown, without the styles. -/
def shownSymbols (symbols : List (Symbol Arg)) : List (Symbol Arg) :=
  symbols.filter fun s => s.style?.isNone

/-- The styles before the first symbol that is shown, between each two, and behind the last. -/
def gaps : List (Symbol Arg) → List (List String)
  | [] => [[]]
  | s :: rest =>
    match s.style? with
    | some css => (gaps rest).modifyHead (css :: ·)
    | none => [] :: gaps rest

def fuseGap (styles : List String) : List String :=
  if styles = [] then [] else [String.join styles]

def Apart (s t : Symbol Arg) : Prop := s.style? = none ∨ t.style? = none

section Fusion
variable {symbols fused rest : List (Symbol Arg)} {s : Symbol Arg} {css : String}

theorem joinStyles_run {styles : List String} (hne : styles ≠ [])
    (hrest : ∀ s, rest.head? = some s → s.style? = none) :
    joinStyles (styles.map (fun css => .directive (.style css)) ++ rest) =
      .directive (.style (String.join styles)) :: joinStyles rest := by
  induction styles with
  | nil => exact (hne rfl).elim
  | cons css styles ih =>
      rw [List.map_cons, List.cons_append, joinStyles, String.join_cons]
      by_cases hs : styles = []
      · rw [hs, List.map_nil, List.nil_append, String.join_nil, String.append_empty]
        cases rest with
        | nil => rfl
        | cons s rest =>
            have hne := Symbol.style?_eq_none_iff.mp (hrest s rfl)
            rw [Draft.joinStyles_of_ne hne, Draft.leadStyle_of_ne hne]
      · rw [ih hs]
        rfl

theorem Fuses.eq_joinStyles (h : Fuses symbols fused) : fused = joinStyles symbols := by
  induction h with
  | done => rfl
  | other hs _ ih => rw [Draft.joinStyles_of_ne (Symbol.style?_eq_none_iff.mp hs), ih]
  | run hne hrest _ ih => rw [joinStyles_run hne hrest, ih]

/-- A style in front goes into the run that follows or is a run of its own. -/
theorem Fuses.leadStyle (h : Fuses symbols fused) (css : String) :
    Fuses (.directive (.style css) :: symbols) (leadStyle css fused) := by
  have alone (hhead : ∀ s, symbols.head? = some s → s.style? = none) :
      Fuses (.directive (.style css) :: symbols) (.directive (.style css) :: fused) := by
    have hrun := Fuses.run (List.cons_ne_nil css []) hhead h
    rw [String.join_cons, String.join_nil, String.append_empty] at hrun
    exact hrun
  cases h with
  | done => exact alone (by simp)
  | @other s rest fused hs hrest =>
      rw [Draft.leadStyle_of_ne (Symbol.style?_eq_none_iff.mp hs)]
      apply alone
      intro t ht
      rw [← Option.some.inj ht]
      exact hs
  | @run styles rest fused hne hhead hrest =>
      have hrun := Fuses.run (List.cons_ne_nil css styles) hhead hrest
      rw [String.join_cons] at hrun
      exact hrun

/-- Styles are fused in one way. -/
theorem fuses_iff : Fuses symbols fused ↔ fused = joinStyles symbols := by
  constructor
  · exact Fuses.eq_joinStyles
  · rintro rfl
    induction symbols with
    | nil => exact .done
    | cons s symbols ih =>
        cases hs : s.style? with
        | none =>
            rw [Draft.joinStyles_of_ne (Symbol.style?_eq_none_iff.mp hs)]
            exact .other hs ih
        | some css =>
            obtain rfl := Symbol.eq_of_style? hs
            exact ih.leadStyle css

theorem shownSymbols_append (symbols more : List (Symbol Arg)) :
    shownSymbols (symbols ++ more) = shownSymbols symbols ++ shownSymbols more :=
  List.filter_append ..

theorem shownSymbols_styles (styles : List String) (rest : List (Symbol Arg)) :
    shownSymbols (styles.map (fun css => .directive (.style css)) ++ rest) = shownSymbols rest := by
  induction styles with
  | nil => rfl
  | cons css styles ih => exact ih

theorem Fuses.shownSymbols_eq (h : Fuses symbols fused) :
    shownSymbols fused = shownSymbols symbols := by
  induction h with
  | done => rfl
  | @other s rest fused hs _ ih =>
      unfold shownSymbols at ih ⊢
      rw [List.filter_cons, List.filter_cons, hs, ih]
  | @run styles rest fused _ _ _ ih =>
      rw [shownSymbols_styles]
      exact ih

theorem shownSymbols_joinStyles (symbols : List (Symbol Arg)) :
    shownSymbols (joinStyles symbols) = shownSymbols symbols :=
  (fuses_iff.mpr rfl).shownSymbols_eq

theorem gaps_of_shown (hs : s.style? = none) (rest : List (Symbol Arg)) :
    gaps (s :: rest) = [] :: gaps rest := by
  rw [gaps, hs]

theorem gaps_style (css : String) (rest : List (Symbol Arg)) :
    gaps (.directive (.style css) :: rest) = (gaps rest).modifyHead (css :: ·) := rfl

theorem gaps_styles (styles : List String) (rest : List (Symbol Arg)) :
    gaps (styles.map (fun css => .directive (.style css)) ++ rest) =
      (gaps rest).modifyHead (styles ++ ·) := by
  induction styles with
  | nil =>
      have hid : (fun later : List String => [] ++ later) = id := rfl
      rw [hid, List.modifyHead_id]
      rfl
  | cons css styles ih =>
      rw [List.map_cons, List.cons_append, gaps_style, ih, List.modifyHead_modifyHead]
      rfl

theorem exists_gaps_eq (hrest : ∀ s, rest.head? = some s → s.style? = none) :
    ∃ later, gaps rest = [] :: later := by
  cases rest with
  | nil => exact ⟨[], rfl⟩
  | cons s rest => exact ⟨gaps rest, gaps_of_shown (hrest s rfl) rest⟩

/-- Between the same symbols the same styles are set, by one directive at most. -/
theorem Fuses.gaps_eq (h : Fuses symbols fused) : gaps fused = (gaps symbols).map fuseGap := by
  induction h with
  | done => rfl
  | other hs _ ih =>
      rw [gaps_of_shown hs, gaps_of_shown hs, ih]
      rfl
  | @run styles rest fused hne hhead _ ih =>
      obtain ⟨later, hlater⟩ := exists_gaps_eq hhead
      have hrest : gaps fused = [] :: later.map fuseGap := by
        rw [ih, hlater]
        rfl
      have hstyles : fuseGap styles = [String.join styles] := if_neg hne
      rw [gaps_styles, hlater, gaps_style, hrest, List.modifyHead_cons, List.modifyHead_cons,
        List.append_nil, List.map_cons, hstyles]

theorem Fuses.head?_shown (h : Fuses symbols fused)
    (hhead : ∀ s, symbols.head? = some s → s.style? = none) :
    ∀ s, fused.head? = some s → s.style? = none := by
  cases h with
  | done => exact hhead
  | other hs _ => exact hhead
  | @run styles rest fused hne _ _ =>
      obtain ⟨css, styles, rfl⟩ := List.exists_cons_of_ne_nil hne
      cases hhead _ rfl

/-- Of the styles that are left no two stand side by side. -/
theorem Fuses.isChain (h : Fuses symbols fused) : fused.IsChain Apart := by
  induction h with
  | done => exact .nil
  | other hs _ ih => exact List.isChain_cons.mpr ⟨fun _ _ => .inl hs, ih⟩
  | run _ hhead hrest ih =>
      apply List.isChain_cons.mpr
      exact ⟨fun s hs => .inr (hrest.head?_shown hhead s hs), ih⟩

/-- Styles that stand side by side in front of the call site are the last one of the message and
that of the call site. -/
theorem place_of_adjacent {trace : Option String} {before after : List (Symbol Arg)}
    {first second : Symbol Arg} (hchain : fused.IsChain Apart)
    (h : fused ++ traceSymbols trace .console = before ++ first :: second :: after)
    (hfirst : first.style? ≠ none) (hsecond : second.style? ≠ none) :
    ∃ place, shownTrace trace = some place ∧ after = (traceText place).map .shown := by
  have hapart : ¬ Apart first second := fun h => h.elim hfirst hsecond
  have hbody (later : List (Symbol Arg)) : fused ≠ before ++ first :: second :: later := by
    intro hf
    rw [hf] at hchain
    exact hapart (List.isChain_append_cons_cons.mp hchain).2.1
  rw [traceSymbols] at h
  cases hplace : shownTrace trace with
  | none =>
      rw [hplace, Option.elim_none, List.append_nil] at h
      exact (hbody _ h).elim
  | some place =>
      rw [hplace, Option.elim_some, placeSymbols_console] at h
      refine ⟨place, rfl, ?_⟩
      have hshown (s : Symbol Arg) (hs : s ∈ (traceText place).map .shown) : s.style? = none := by
        obtain ⟨c, -, rfl⟩ := List.mem_map.mp hs
        rfl
      rcases Markup.append_eq_append_cons h with ⟨tail, hfused, htail⟩ | ⟨tail, -, htail⟩
      · cases tail with
        | nil => exact (List.cons.inj htail).2
        | cons t tail =>
            obtain ⟨rfl, -⟩ := List.cons.inj htail
            exact (hbody tail hfused).elim
      · cases tail with
        | nil =>
            obtain ⟨-, hlater⟩ := List.cons.inj htail
            apply absurd (hshown second _) hsecond
            rw [hlater]
            exact List.mem_cons_self
        | cons t tail =>
            obtain ⟨-, hlater⟩ := List.cons.inj htail
            apply absurd (hshown first _) hfirst
            rw [hlater]
            simp

end Fusion

namespace Message
variable {m : Message} {rule : StylingRule} {trace : Option String}

/-- The symbols of a message on a console when each switch of a style has a directive of its
own. -/
def singleSymbols (m : Message) (highlights : Highlights) : List (Symbol Arg) :=
  (m.items highlights).flatMap Markup.Item.console

/-- A console line is the line of single directives with the styles fused that stand side by side,
and behind it the call site with a directive that is fused with nothing. The same is shown, and
between what is shown the same styles are set; two styles stand side by side only where the second
is that of the call site. -/
theorem typeset_fuses (h : rule m.values = false) (highlights : Highlights)
    (trace : Option String) :
    ∃ body, (∀ other, Fuses (m.singleSymbols highlights) other ↔ other = body) ∧
      m.typeset highlights trace ⟨.console, rule⟩ =
        .ofSymbols (body ++ traceSymbols trace .console) ∧
      shownSymbols body = shownSymbols (m.singleSymbols highlights) ∧
      gaps body = (gaps (m.singleSymbols highlights)).map fuseGap ∧
      ∀ format before after,
        (m.typeset highlights trace ⟨.console, rule⟩).format? = some format →
        readFormat format.toList =
          some (before ++ .directive .style :: .directive .style :: after) →
        ∃ place, shownTrace trace = some place ∧ after = (traceText place).map .shown := by
  have hfuses : Fuses (m.singleSymbols highlights) (joinStyles (m.singleSymbols highlights)) :=
    fuses_iff.mpr rfl
  have hline : m.typeset highlights trace ⟨.console, rule⟩ =
      .ofSymbols (joinStyles (m.singleSymbols highlights) ++ traceSymbols trace .console) :=
    typeset_styled h highlights trace .console
  refine ⟨_, fun other => fuses_iff, hline, hfuses.shownSymbols_eq, hfuses.gaps_eq, ?_⟩
  intro format before after hformat hread
  rw [hline, Line.format?_ofSymbols] at hformat
  obtain rfl := Option.some.inj hformat
  rw [String.toList_ofList, readFormat_spell] at hread
  obtain ⟨front, back, hsplit, -, hback⟩ := List.map_eq_append_iff.mp (Option.some.inj hread)
  obtain ⟨first, back, rfl, hfirst, hback⟩ := List.map_eq_cons_iff.mp hback
  obtain ⟨second, back, rfl, hsecond, hback⟩ := List.map_eq_cons_iff.mp hback
  obtain ⟨place, hplace, hafter⟩ := place_of_adjacent hfuses.isChain hsplit
    (Symbol.style?_ne_none hfirst) (Symbol.style?_ne_none hsecond)
  refine ⟨place, hplace, ?_⟩
  rw [← hback, hafter, map_map_shown]

/-- Marks that meet each other and a highlight: all styles in one place are one, and the last of
them stays apart from that of the call site. -/
theorem typeset_fuses_meeting :
    let m : Message := ⟨["a ***", "***"], [.int 5]⟩
    let bold := (Markup.Style.marker .bold).css
    let italic := (Markup.Style.marker .italic).css
    let changed := Markup.Style.changed.css
    StylingRule.lenient m.values = false ∧
      ∃ body, Fuses (m.singleSymbols (.ofList [0])) body ∧
        gaps body = [[], [], [bold true ++ italic true ++ changed true],
          [changed false ++ bold false ++ italic false]] ∧
        m.typeset (.ofList [0]) (some "p") .console =
          .ofSymbols (body ++ traceSymbols (some "p") .console) ∧
        (m.typeset (.ofList [0]) (some "p") .console).format? = some "a %c5%c%c(@ p)" := by
  intro m bold italic changed
  have h : StylingRule.lenient m.values = false := rfl
  obtain ⟨body, hall, hline, -, hgaps, -⟩ := typeset_fuses h (.ofList [0]) (some "p")
  exact ⟨h, body, (hall body).mpr rfl, hgaps.trans rfl, hline, rfl⟩

end Message
end RenderLog
