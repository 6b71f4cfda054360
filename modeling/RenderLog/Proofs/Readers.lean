import RenderLog.Proofs.Display

/-!
# Two readers of a format

A format written by hand may have any form. It is counted by one reader and shown by
another, and they go on differently behind a percent sign that starts nothing: one skips the
character behind it and the other looks at that character again. It is no percent sign, so
both are at the same place after it.

What they both read is laid down by a rule on the characters of the format, which leaves
one reading of every text. A directive takes one argument, whether there is one or not. So
the count tells how many arguments a line looks at, and the next directive, wherever a
format is continued, takes the argument behind those.
-/
namespace RenderLog

/-- The symbols of a format of any form. A percent sign that starts no directive and is not
doubled is shown. -/
inductive Reads : List Char → List (Symbol Directive) → Prop
  | done : Reads [] []
  | shown {c : Char} {rest : List Char} {symbols : List (Symbol Directive)} : c ≠ '%' →
      Reads rest symbols → Reads (c :: rest) (.shown c :: symbols)
  | doubled {rest : List Char} {symbols : List (Symbol Directive)} : Reads rest symbols →
      Reads ('%' :: '%' :: rest) (.shown '%' :: symbols)
  | directive {c : Char} {d : Directive} {rest : List Char} {symbols : List (Symbol Directive)} :
      c = d.letter → Reads rest symbols → Reads ('%' :: c :: rest) (.directive d :: symbols)
  | lone {rest : List Char} {symbols : List (Symbol Directive)} : rest.head? ≠ some '%' →
      (∀ d : Directive, rest.head? ≠ some d.letter) → Reads rest symbols →
      Reads ('%' :: rest) (.shown '%' :: symbols)

def directives (symbols : List (Symbol Directive)) : List Directive :=
  symbols.filterMap Symbol.directive?

/-- What symbols show when each directive takes the next argument. -/
def supply : List (Symbol Directive) → List Arg → List Char
  | [], _ => []
  | .shown c :: rest, args => c :: supply rest args
  | .directive .style :: rest, args => supply rest args.tail
  | .directive .object :: rest, args => objectText args.head? ++ supply rest args.tail

def Symbol.bare : Symbol Directive → List Char
  | .shown c => [c]
  | .directive .style => []
  | .directive .object => ['%', 'o']

section Reading
variable {cs : List Char} {symbols other : List (Symbol Directive)}

theorem format_cases (cs : List Char) :
    cs = [] ∨ (∃ c rest, cs = c :: rest ∧ c ≠ '%') ∨ (∃ rest, cs = '%' :: '%' :: rest) ∨
      (∃ (d : Directive) (rest : List Char), cs = '%' :: d.letter :: rest) ∨
      ∃ rest, cs = '%' :: rest ∧ rest.head? ≠ some '%' ∧
        ∀ d : Directive, rest.head? ≠ some d.letter := by
  cases cs with
  | nil => exact .inl rfl
  | cons c rest =>
      right
      by_cases hc : c = '%'
      · right
        subst hc
        by_cases hdoubled : rest.head? = some '%'
        · obtain ⟨tail, rfl⟩ := List.head?_eq_some_iff.mp hdoubled
          exact .inl ⟨tail, rfl⟩
        · right
          by_cases hdirective : ∃ d : Directive, rest.head? = some d.letter
          · obtain ⟨d, hd⟩ := hdirective
            obtain ⟨tail, rfl⟩ := List.head?_eq_some_iff.mp hd
            exact .inl ⟨d, tail, rfl⟩
          · exact .inr ⟨rest, rfl, hdoubled, not_exists.mp hdirective⟩
      · exact .inl ⟨c, rest, rfl, hc⟩

theorem exists_reads (cs : List Char) : ∃ symbols, Reads cs symbols := by
  induction hn : cs.length using Nat.strongRecOn generalizing cs with
  | ind n ih =>
      subst hn
      rcases format_cases cs with rfl | ⟨c, rest, rfl, hc⟩ | ⟨rest, rfl⟩ | ⟨d, rest, rfl⟩ |
        ⟨rest, rfl, hdoubled, hdirective⟩
      · exact ⟨_, .done⟩
      · obtain ⟨symbols, h⟩ := ih rest.length (by simp) rest rfl
        exact ⟨_, .shown hc h⟩
      · obtain ⟨symbols, h⟩ := ih rest.length (Nat.lt_succ_of_lt (Nat.lt_succ_self _)) rest rfl
        exact ⟨_, .doubled h⟩
      · obtain ⟨symbols, h⟩ := ih rest.length (Nat.lt_succ_of_lt (Nat.lt_succ_self _)) rest rfl
        exact ⟨_, .directive rfl h⟩
      · obtain ⟨symbols, h⟩ := ih rest.length (by simp) rest rfl
        exact ⟨_, .lone hdoubled hdirective h⟩

theorem Directive.letter_ne (d : Directive) : d.letter ≠ '%' := by
  cases d <;> decide

theorem Directive.letter_injective {d e : Directive} (h : d.letter = e.letter) : d = e := by
  cases d <;> cases e <;> simp_all [letter]

theorem Reads.unique (h : Reads cs symbols) (h' : Reads cs other) : symbols = other := by
  induction h generalizing other with
  | done =>
      cases h'
      rfl
  | shown hc _ ih =>
      cases h' with
      | shown _ h' => rw [ih h']
      | doubled _ => exact (hc rfl).elim
      | directive _ _ => exact (hc rfl).elim
      | lone _ _ _ => exact (hc rfl).elim
  | doubled _ ih =>
      cases h' with
      | shown hc _ => exact (hc rfl).elim
      | doubled h' => rw [ih h']
      | @directive _ d _ _ hd _ => exact (d.letter_ne hd.symm).elim
      | lone hdoubled _ _ => exact (hdoubled rfl).elim
  | @directive c d _ _ hd _ ih =>
      cases h' with
      | shown hc _ => exact (hc rfl).elim
      | doubled _ => exact (d.letter_ne hd.symm).elim
      | directive he h' => rw [ih h', Directive.letter_injective (hd.symm.trans he)]
      | lone _ hdirective _ => exact (hdirective d (congrArg some hd)).elim
  | lone hdoubled hdirective _ ih =>
      cases h' with
      | shown hc _ => exact (hc rfl).elim
      | doubled _ => exact (hdoubled rfl).elim
      | @directive _ d _ _ hd _ => exact (hdirective d (congrArg some hd)).elim
      | lone _ _ h' => rw [ih h']

theorem Reads.countDirectives_eq (h : Reads cs symbols) :
    countDirectives cs = (directives symbols).length := by
  induction h with
  | done => rfl
  | shown hc _ ih => rw [countDirectives_cons_of_ne hc, ih]; rfl
  | doubled _ ih =>
      rw [countDirectives, if_pos rfl, if_neg (by decide), Nat.zero_add, ih]
      rfl
  | @directive c d _ _ hd _ ih =>
      subst hd
      have hone : (if d.letter = 'c' ∨ d.letter = 'o' then 1 else 0) = 1 := by
        cases d <;> rfl
      rw [countDirectives, if_pos rfl, hone, ih, Nat.add_comm]
      rfl
  | @lone rest symbols hdoubled hdirective _ ih =>
      cases rest with
      | nil => exact ih
      | cons d rest =>
          have hd : d ≠ '%' := fun he => hdoubled (congrArg some he)
          have hc : d ≠ 'c' := fun he => hdirective .style (congrArg some he)
          have ho : d ≠ 'o' := fun he => hdirective .object (congrArg some he)
          rw [countDirectives_cons_of_ne hd] at ih
          rw [countDirectives, if_pos rfl, if_neg (not_or.mpr ⟨hc, ho⟩), Nat.zero_add, ih]
          rfl

theorem Reads.displayFormat_eq (h : Reads cs symbols) (args : List Arg) :
    displayFormat cs args = supply symbols args := by
  induction h generalizing args with
  | done => rfl
  | shown hc _ ih => rw [displayFormat_cons_of_ne hc, ih, supply]
  | doubled _ ih => rw [displayFormat, if_pos ⟨rfl, rfl⟩, ih, supply]
  | @directive c d _ _ hd _ ih =>
      subst hd
      cases d with
      | style => simp [displayFormat, Directive.letter, ih, supply]
      | object => simp [displayFormat, Directive.letter, ih, supply]
  | @lone rest symbols hdoubled hdirective _ ih =>
      cases rest with
      | nil => rw [supply, ← ih]; rfl
      | cons d rest =>
          have hd : d ≠ '%' := fun he => hdoubled (congrArg some he)
          have hc : d ≠ 'c' := fun he => hdirective .style (congrArg some he)
          have ho : d ≠ 'o' := fun he => hdirective .object (congrArg some he)
          rw [supply, ← ih, displayFormat]
          simp [hd, hc, ho]

/-- A format goes on behind a blank as though it started there. -/
theorem Reads.continued {rest : List Char} (h : Reads cs symbols) (hrest : Reads rest other) :
    Reads (cs ++ ' ' :: rest) (symbols ++ .shown ' ' :: other) := by
  induction h with
  | done => exact .shown (by decide) hrest
  | shown hne _ ih => exact .shown hne ih
  | doubled _ ih => exact .doubled ih
  | directive hd _ ih => exact .directive hd ih
  | @lone tail _ hdoubled hdirective _ ih =>
      -- Behind a percent sign at the end of the format stands the blank.
      refine .lone ?_ (fun d => ?_) ih
      · cases tail with
        | nil => simp
        | cons _ _ => exact hdoubled
      · cases tail with
        | nil => cases d <;> simp [Directive.letter]
        | cons _ _ => exact hdirective d

end Reading

section Supply
variable {symbols : List (Symbol Directive)}

/-- The arguments that a part of the symbols leaves are for the directives behind it. -/
theorem supply_append (front back : List (Symbol Directive)) (args : List Arg) :
    supply (front ++ back) args =
      supply front args ++ supply back (args.drop (directives front).length) := by
  induction front generalizing args with
  | nil => rfl
  | cons s front ih =>
      match s with
      | .shown c =>
          rw [List.cons_append, supply, supply, ih]
          rfl
      | .directive .style =>
          rw [List.cons_append, supply, supply, ih, List.drop_tail]
          rfl
      | .directive .object =>
          rw [List.cons_append, supply, supply, ih, List.drop_tail, List.append_assoc]
          rfl

theorem supply_nil (symbols : List (Symbol Directive)) :
    supply symbols [] = symbols.flatMap Symbol.bare := by
  induction symbols with
  | nil => rfl
  | cons s symbols ih =>
      match s with
      | .shown c | .directive .style | .directive .object =>
          rw [List.flatMap_cons, supply, ← ih]
          rfl

theorem supply_take (symbols : List (Symbol Directive)) (args : List Arg) :
    supply symbols (args.take (directives symbols).length) = supply symbols args := by
  have htail (n : Nat) (args : List Arg) : (args.take (n + 1)).tail = args.tail.take n := by
    cases args <;> simp
  have hhead (n : Nat) (args : List Arg) : (args.take (n + 1)).head? = args.head? := by
    cases args <;> simp
  induction symbols generalizing args with
  | nil => rfl
  | cons s symbols ih =>
      match s with
      | .shown c => exact congrArg (c :: ·) (ih args)
      | .directive .style =>
          rw [supply, supply, ← ih args.tail, ← htail]
          rfl
      | .directive .object =>
          rw [supply, supply, ← ih args.tail, ← htail, ← hhead (directives symbols).length args]
          rfl

/-- The directive that is put behind a format takes the first argument that the format leaves. -/
theorem Reads.displayFormat_next {cs : List Char} (h : Reads cs symbols) (args : List Arg) :
    displayFormat (cs ++ [' ', '%', 'o']) args =
      supply symbols args ++ ' ' :: objectText args[(directives symbols).length]? := by
  have hnext : Reads (cs ++ [' ', '%', 'o']) (symbols ++ [.shown ' ', .directive .object]) :=
    h.continued (.directive rfl .done)
  rw [hnext.displayFormat_eq, supply_append, supply, supply, supply, List.append_nil,
    List.head?_drop]

end Supply

namespace Line

/-- Both readers of a format of any form find the same directives, and each takes one argument in
turn. So a line looks at as many arguments as the count tells: a directive behind the format
takes the next one, arguments behind the counted ones mean nothing, and where they end objects
are shown as their directive and styles as nothing. -/
theorem readers_agree (format : String) :
    ∃ symbols, (∀ other, Reads format.toList other ↔ other = symbols) ∧
      ∀ args : List Arg,
        (styled format args).directiveCount = (directives symbols).length ∧
        (styled format args).display = String.ofList (supply symbols args) ∧
        (styled (format ++ " %o") args).display =
          (styled format args).display ++ " " ++
            String.ofList (objectText args[(styled format args).directiveCount]?) ∧
        (∀ more : List Arg,
          more.take (styled format args).directiveCount =
            args.take (styled format args).directiveCount →
          (styled format more).display = (styled format args).display) ∧
        ∀ front back, symbols = front ++ back → (directives front).length = args.length →
          (styled format args).display =
            String.ofList (supply front args ++ back.flatMap Symbol.bare) := by
  obtain ⟨symbols, h⟩ := exists_reads format.toList
  have hall (other : List (Symbol Directive)) : Reads format.toList other ↔ other = symbols :=
    ⟨fun h' => h'.unique h, fun he => he ▸ h⟩
  have hcount (args : List Arg) :
      (styled format args).directiveCount = (directives symbols).length := h.countDirectives_eq
  have hdisplay (args : List Arg) :
      (styled format args).display = String.ofList (supply symbols args) := by
    rw [display, h.displayFormat_eq]
  refine ⟨symbols, hall, fun args => ⟨hcount args, hdisplay args, ?_, ?_, ?_⟩⟩
  · have hblank : " " = String.ofList [' '] := rfl
    have hformat : (format ++ " %o").toList = format.toList ++ [' ', '%', 'o'] :=
      String.toList_append
    rw [hcount, hdisplay, display, hformat, h.displayFormat_next, hblank, ← String.ofList_append,
      ← String.ofList_append, List.append_assoc, List.singleton_append]
  · intro more hmore
    rw [hcount] at hmore
    rw [hdisplay, hdisplay, ← supply_take, hmore, supply_take]
  · rintro front back rfl hlength
    rw [hdisplay, supply_append, hlength, List.drop_length, supply_nil]

/-- A doubled percent sign before a directive and lone ones before another character and at the end:
the object of the line is missing, or there is one argument more than directives. -/
theorem readers_agree_lone :
    let format := "%%%c%é%o%"
    let front : List (Symbol Directive) := [.shown '%', .directive .style, .shown '%', .shown 'é']
    let back : List (Symbol Directive) := [.directive .object, .shown '%']
    let o : Arg := .object ⟨0, "[1]"⟩
    Reads format.toList (front ++ back) ∧
      (styled format [.style "s"]).directiveCount = 2 ∧
      (styled format [.style "s"]).display = "%%é%o%" ∧
      [.style "s", o, .style "t"].take 2 = [.style "s", o].take 2 ∧
      (styled format [.style "s", o, .style "t"]).display = "%%é[1]%" ∧
      (styled (format ++ " %o") [.style "s", o, o]).display = "%%é[1]% [1]" := by
  intro format front back o
  obtain ⟨symbols, hall, h⟩ := readers_agree format
  have hchars : format.toList = ['%', '%', '%', 'c', '%', 'é', '%', 'o', '%'] := by decide
  have hreads : Reads format.toList (front ++ back) := by
    rw [hchars]
    refine .doubled (.directive rfl (.lone ?_ ?_ (.shown ?_ (.directive rfl (.lone ?_ ?_ .done)))))
    · decide
    · intro d
      cases d <;> decide
    · decide
    · decide
    · intro d
      cases d <;> decide
  have hsymbols := (hall _).mp hreads
  obtain ⟨hcount, -, -, -, hends⟩ := h [.style "s"]
  obtain ⟨htwo, hdisplay, -, hextra, -⟩ := h [.style "s", o]
  obtain ⟨-, hmore, hnext, -, -⟩ := h [.style "s", o, o]
  rw [← hsymbols] at hcount hdisplay hmore htwo
  rw [hmore] at hnext
  have htake : [.style "s", o, .style "t"].take 2 = [.style "s", o].take 2 := rfl
  have hsame := hextra [.style "s", o, .style "t"] (by rw [htwo]; exact htake)
  exact ⟨hreads, hcount, hends front back hsymbols.symm rfl, htake, hsame.trans hdisplay,
    hnext.trans (by decide)⟩

end Line
end RenderLog
