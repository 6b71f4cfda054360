import RenderLog.Proofs.Display

/-!
# Inert marks

A mark that is closed opens after a boundary, and one that is open closes before a
boundary. So whether a mark switches is seen from the character before it or from
the one behind it. A stretch of text is inert where none of its marks switch. It is
then read as it stands, and otherwise a character of it is lost.
-/
namespace RenderLog.Markup

section Inert
variable {s : OpenMarkers} {prev next : Char} {l : Lexeme} {ls rest : List Lexeme}

/-- Between these two characters the lexeme switches nothing. -/
def Lexeme.Inert (s : OpenMarkers) (prev next : Char) : Lexeme → Prop
  | .plain _ => True
  | .mark m _ => isBoundary (some (if s.isOpen m then next else prev)) = false

instance Lexeme.Inert.decidable : Decidable (l.Inert s prev next) :=
  match l with
  | .plain _ => .isTrue trivial
  | .mark _ _ => inferInstanceAs (Decidable (_ = _))

/-- The character before a place in a text, `prev` at its start. -/
def signBefore (prev : Char) (ls : List Lexeme) : Char := (ls.getLast?.map Lexeme.sign).getD prev

/-- The character behind a place in a text, `next` at its end. -/
def signAfter (next : Char) (ls : List Lexeme) : Char := (ls.head?.map Lexeme.sign).getD next

theorem signBefore_cons (prev : Char) (l : Lexeme) (ls : List Lexeme) :
    signBefore prev (l :: ls) = signBefore l.sign ls := by
  rw [signBefore, signBefore, List.getLast?_cons]
  cases ls.getLast? <;> rfl

/-- A text in which each lexeme is inert between its neighbours. -/
def Inert (s : OpenMarkers) (prev next : Char) (ls : List Lexeme) : Prop :=
  ∀ before l after, ls = before ++ l :: after →
    l.Inert s (signBefore prev before) (signAfter next after)

theorem inert_nil : Inert s prev next [] := by
  intro before l after h
  simp at h

theorem inert_cons : Inert s prev next (l :: ls) ↔
    l.Inert s prev (signAfter next ls) ∧ Inert s l.sign next ls := by
  constructor
  · intro h
    refine ⟨h [] l ls rfl, ?_⟩
    intro before k after hls
    rw [← signBefore_cons prev]
    exact h (l :: before) k after (congrArg (l :: ·) hls)
  · rintro ⟨hl, hls⟩ before k after h
    cases before with
    | nil =>
        obtain ⟨rfl, rfl⟩ := List.cons.inj h
        exact hl
    | cons m before =>
        obtain ⟨rfl, hrest⟩ := List.cons.inj h
        rw [signBefore_cons]
        exact hls before k after hrest

instance Inert.decidable (s : OpenMarkers) (next : Char) :
    (prev : Char) → (ls : List Lexeme) → Decidable (Inert s prev next ls)
  | _, [] => .isTrue inert_nil
  | _, l :: ls =>
    have := Inert.decidable s next l.sign ls
    decidable_of_iff _ inert_cons.symm

theorem head?_append_plain (ls rest : List Lexeme) (next : Char) :
    (ls ++ .plain next :: rest).head?.map Lexeme.sign = some (signAfter next ls) := by
  cases ls <;> rfl

/-- An inert lexeme stands for its characters. -/
theorem eventsAfter_cons_of_inert (h : l.Inert s prev (signAfter next ls)) (rest : List Lexeme) :
    eventsAfter s (some prev) (l :: (ls ++ .plain next :: rest)) =
      l.chars.map .literal ++ eventsAfter s (some l.sign) (ls ++ .plain next :: rest) := by
  cases l with
  | plain c => rfl
  | mark m c =>
      rw [eventsAfter, head?_append_plain]
      cases ho : s.isOpen m with
      | true =>
          have hb : isBoundary (some (signAfter next ls)) = false := by
            simpa [Lexeme.Inert, ho] using h
          simp [hb, Lexeme.sign]
      | false =>
          have hb : isBoundary (some prev) = false := by
            simpa [Lexeme.Inert, ho] using h
          simp [hb, Lexeme.sign]

/-- A lexeme that is not inert is a mark that switches. -/
theorem eventsAfter_cons_of_not_inert (h : ¬ l.Inert s prev (signAfter next ls))
    (rest : List Lexeme) : ∃ m on,
    eventsAfter s (some prev) (l :: (ls ++ .plain next :: rest)) =
      .toggle m on :: eventsAfter (s.set m on) none (ls ++ .plain next :: rest) := by
  cases l with
  | plain c => exact (h trivial).elim
  | mark m c =>
      rw [eventsAfter, head?_append_plain]
      cases ho : s.isOpen m with
      | true =>
          have hb : isBoundary (some (signAfter next ls)) = true := by
            simpa [Lexeme.Inert, ho] using h
          exact ⟨m, false, by simp [hb]⟩
      | false =>
          have hb : isBoundary (some prev) = true := by
            simpa [Lexeme.Inert, ho] using h
          exact ⟨m, true, by simp [hb]⟩

theorem eventsAfter_of_inert (h : Inert s prev next ls) (rest : List Lexeme) :
    eventsAfter s (some prev) (ls ++ .plain next :: rest) =
      (ls.flatMap Lexeme.chars ++ [next]).map .literal ++ eventsAfter s (some next) rest := by
  induction ls generalizing prev with
  | nil => rfl
  | cons l ls ih =>
      obtain ⟨hl, hls⟩ := inert_cons.mp h
      rw [List.cons_append, eventsAfter_cons_of_inert hl, ih hls]
      simp

theorem literals_append (first second : List Event) :
    literals (first ++ second) = literals first ++ literals second := List.filterMap_append

@[simp] theorem literals_map (cs : List Char) : literals (cs.map .literal) = cs := by
  induction cs with
  | nil => rfl
  | cons c cs ih => exact congrArg (c :: ·) ih

theorem literals_toggle (m : Marker) (on : Bool) (events : List Event) :
    literals (.toggle m on :: events) = literals events := rfl

theorem length_literals_le {k : Nat}
    (hrest : ∀ s prev, (literals (eventsAfter s prev rest)).length = k) (s : OpenMarkers)
    (prev : Option Char) (ls : List Lexeme) :
    (literals (eventsAfter s prev (ls ++ rest))).length ≤
      (ls.flatMap Lexeme.chars).length + k := by
  induction ls generalizing s prev with
  | nil => simp [hrest]
  | cons l ls ih =>
      rw [List.flatMap_cons, List.length_append]
      cases l with
      | plain c =>
          have hle := ih s (some c)
          simp only [List.cons_append, eventsAfter, literals, Event.literal?, List.filterMap_cons,
            List.length_cons, Lexeme.chars, List.length_nil] at hle ⊢
          omega
      | mark m c =>
          rw [List.cons_append, eventsAfter]
          split
          · have hle := ih (s.set m false) none
            rw [literals_toggle]
            omega
          · split
            · have hle := ih (s.set m true) none
              rw [literals_toggle]
              omega
            · have hle := ih s (some c)
              rw [literals_append, literals_map, List.length_append]
              omega

theorem Lexeme.length_chars_pos (l : Lexeme) : 0 < l.chars.length := by
  match l with
  | .plain _ | .mark .bold _ | .mark .italic _ | .mark .code _ => exact Nat.succ_pos _

/-- A text that is not inert loses a character. -/
theorem length_literals_lt {k : Nat}
    (hrest : ∀ s prev, (literals (eventsAfter s prev (.plain next :: rest))).length = k)
    (h : ¬ Inert s prev next ls) :
    (literals (eventsAfter s (some prev) (ls ++ .plain next :: rest))).length <
      (ls.flatMap Lexeme.chars).length + k := by
  induction ls generalizing prev with
  | nil => exact (h inert_nil).elim
  | cons l ls ih =>
      rw [List.cons_append, List.flatMap_cons, List.length_append]
      by_cases hl : l.Inert s prev (signAfter next ls)
      · have hls : ¬ Inert s l.sign next ls := fun hls => h (inert_cons.mpr ⟨hl, hls⟩)
        have hlt := ih hls
        rw [eventsAfter_cons_of_inert hl, literals_append, literals_map, List.length_append]
        omega
      · obtain ⟨m, on, he⟩ := eventsAfter_cons_of_not_inert hl rest
        have hle := length_literals_le hrest (s.set m on) none ls
        have hpos := l.length_chars_pos
        rw [he, literals_toggle]
        omega

end Inert

section Plain
variable {s : OpenMarkers} {prev : Option Char} {cs : List Char} {c : Char}

theorem lexemes_append_of_forall (h : ∀ c ∈ cs, ¬ IsSign c) (rest : List Char) :
    lexemes (cs ++ rest) = cs.map .plain ++ lexemes rest := by
  induction cs with
  | nil => rfl
  | cons c cs ih =>
      have hcs : ∀ d ∈ cs, ¬ IsSign d := fun d hd => h d (List.mem_cons_of_mem c hd)
      rw [List.cons_append, lexemes_plain (h c List.mem_cons_self), ih hcs]
      rfl

/-- A character that is no sign ends what comes before it. -/
theorem lexemes_append_cons (h : ¬ IsSign c) (cs rest : List Char) :
    lexemes (cs ++ c :: rest) = lexemes cs ++ .plain c :: lexemes rest := by
  fun_induction lexemes cs with
  | case1 => exact lexemes_plain h rest
  | case2 d =>
      have hd : ¬ (d = c ∧ (d = '*' ∨ d = '_')) := by
        rintro ⟨rfl, hs⟩
        exact h (or_assoc.mp (.inl hs))
      rw [List.cons_append, List.nil_append, lexemes, if_neg hd, lexemes_plain h]
      rfl
  | case3 d e tail hd ih => rw [List.cons_append, List.cons_append, lexemes, if_pos hd, ih]; rfl
  | case4 d e tail hd ih =>
      rw [List.cons_append] at ih
      rw [List.cons_append, List.cons_append, lexemes, if_neg hd, ih]
      rfl

theorem eventsAfter_plain (s : OpenMarkers) (prev : Option Char) (cs : List Char)
    (rest : List Lexeme) :
    eventsAfter s prev (cs.map .plain ++ rest) =
      cs.map .literal ++ eventsAfter s (cs.getLast?.or prev) rest := by
  induction cs generalizing prev with
  | nil => rfl
  | cons c cs ih =>
      have hlast : (c :: cs).getLast?.or prev = cs.getLast?.or (some c) := by
        rw [List.getLast?_cons]
        cases cs.getLast? <;> rfl
      rw [hlast, List.map_cons, List.cons_append, eventsAfter, ih]
      rfl

theorem lexemes_of_forall (h : ∀ c ∈ cs, ¬ IsSign c) : lexemes cs = cs.map .plain := by
  have hl := lexemes_append_of_forall h []
  rwa [List.append_nil, lexemes, List.append_nil] at hl

theorem eventsAfter_of_forall (h : ∀ c ∈ cs, ¬ IsSign c) :
    eventsAfter s prev (lexemes cs) = cs.map .literal := by
  have he := eventsAfter_plain s prev cs []
  rw [List.append_nil, eventsAfter, List.append_nil] at he
  rw [lexemes_of_forall h, he]

theorem lexemes_code (rest : List Char) :
    lexemes ('\x60' :: rest) = .mark .code '\x60' :: lexemes rest := by
  cases rest <;> simp [lexemes, Lexeme.ofChar]

end Plain

end RenderLog.Markup
