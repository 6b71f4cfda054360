import Mathlib.Data.List.DropRight
import RenderLog.Demo

/-!
# Accepted settings

A value of a variable is good if it spells one of a few words: blanks may stand around
the word, and an ASCII letter of it may be in either case. Settings are read exactly when
the values that are given are all good, and each setting is then what its own value
means. Otherwise the first bad value is refused, as it was given. Assignments whose
values are spelled alike are read alike, and a demonstration that cannot read its
settings prints what it prints without any.
-/
namespace RenderLog
namespace Text
variable {cs word front back : List Char}

theorem isBlank_of_ascii {c : Char} (h : 0x20 < c.toNat) (h' : c.toNat < 0x7f) :
    isBlank c = false := by
  simp only [isBlank, blankRanges, List.any_cons, List.any_nil, Bool.or_false,
    Bool.or_eq_false_iff, decide_eq_false_iff_not]
  omega

theorem isBlank_toLower (c : Char) : isBlank c.toLower = isBlank c := by
  unfold Char.toLower
  split
  next h =>
    have hlow : 65 ≤ c.toNat := UInt32.le_iff_toNat_le.mp h.1
    have hhigh : c.toNat ≤ 90 := UInt32.le_iff_toNat_le.mp h.2
    have hlower : (c.val + ('a'.val - 'A'.val)).toNat = c.toNat + 32 := by
      have hlt : c.toNat + 32 < 2 ^ 32 := by omega
      exact (UInt32.toNat_add _ _).trans (Nat.mod_eq_of_lt hlt)
    rw [isBlank_of_ascii (c := c) (by omega) (by omega)]
    refine isBlank_of_ascii (lt_of_lt_of_eq ?_ hlower.symm) (lt_of_eq_of_lt hlower ?_) <;> omega
  next => rfl

theorem lower_trim (cs : List Char) : lower (trim cs) = trim (lower cs) := by
  have hblank : isBlank ∘ Char.toLower = isBlank := funext isBlank_toLower
  simp only [lower, trim, List.dropWhile_map, hblank, ← List.map_reverse]

theorem trim_eq_rdropWhile (cs : List Char) :
    trim cs = (cs.dropWhile isBlank).rdropWhile isBlank := rfl

theorem trim_append_left (hfront : ∀ c ∈ front, isBlank c = true) (cs : List Char) :
    trim (front ++ cs) = trim cs := by
  rw [trim, List.dropWhile_append_of_pos hfront, trim]

theorem trim_append_right (hback : ∀ c ∈ back, isBlank c = true) (cs : List Char) :
    trim (cs ++ back) = trim cs := by
  have hrev : ∀ c ∈ back.reverse, isBlank c = true := fun c hc => hback c (List.mem_reverse.mp hc)
  rw [trim, List.dropWhile_append]
  split
  next h =>
    rw [List.dropWhile_eq_nil_iff.mpr hback, trim, List.isEmpty_iff.mp h]
  next => rw [List.reverse_append, List.dropWhile_append_of_pos hrev, trim]

/-- The text is the word with blanks around it, in letters of either case. -/
def Spells (cs word : List Char) : Prop :=
  ∃ front core back, cs = front ++ core ++ back ∧ (∀ c ∈ front, isBlank c = true) ∧
    (∀ c ∈ back, isBlank c = true) ∧ lower core = word

theorem Spells.lower_trim_eq (h : Spells cs word) : lower (trim cs) = trim word := by
  obtain ⟨front, core, back, rfl, hfront, hback, rfl⟩ := h
  rw [List.append_assoc, trim_append_left hfront, trim_append_right hback, lower_trim]

theorem spells_lower_trim (cs : List Char) : Spells cs (lower (trim cs)) := by
  refine ⟨cs.takeWhile isBlank, trim cs, (cs.dropWhile isBlank).rtakeWhile isBlank, ?_, ?_, ?_, rfl⟩
  · rw [List.append_assoc, trim_eq_rdropWhile, List.rdropWhile_append_rtakeWhile,
      List.takeWhile_append_dropWhile]
  · exact fun c hc => List.mem_takeWhile_imp hc
  · exact fun c hc => List.mem_rtakeWhile_imp hc

/-- A word without blanks around it is spelled by the texts that come down to it. -/
theorem spells_iff (hword : trim word = word) : Spells cs word ↔ lower (trim cs) = word := by
  constructor
  · intro h
    rw [h.lower_trim_eq, hword]
  · intro h
    rw [← h]
    exact spells_lower_trim cs

end Text

namespace Settings

/-- The texts spell one word, so that they differ in blanks around it and in the case of ASCII
letters at most. -/
def SpelledAlike (value other : String) : Prop :=
  ∃ word, Text.Spells value.toList word ∧ Text.Spells other.toList word

/-- The value spells a word for this meaning. -/
def Means {α : Type} (words : α → List String) (value : String) (a : α) : Prop :=
  ∃ word ∈ words a, Text.Spells value.toList word.toList

def flagWords : Bool → List String
  | true => ["1", "true", "on", "yes"]
  | false => ["0", "false", "off", "no"]

def mediumWords : Medium → List String
  | .terminal => ["terminal", "tty"]
  | .console => ["console", "browser"]

/-- The value means something for the variable. -/
def Accepts : Variable → String → Prop
  | .medium, value => ∃ medium, Means mediumWords value medium
  | _, value => ∃ flag, Means flagWords value flag

/-- The variables that are looked at before this one. -/
def earlier : Variable → List Variable
  | .enabled => []
  | .medium => [.enabled]
  | .sandbox => [.enabled, .medium]

variable {α β : Type}

theorem normal_eq_of_spelledAlike {value other : String} (h : SpelledAlike value other) :
    normal value = normal other := by
  obtain ⟨word, hvalue, hother⟩ := h
  rw [normal, normal, hvalue.lower_trim_eq, hother.lower_trim_eq]

/-- The table holds the words of each meaning, which have no blanks around them. -/
structure Holds (accepted : List (String × α)) (words : α → List String) : Prop where
  mem : ∀ e ∈ accepted, e.1 ∈ words e.2
  lookup : ∀ a, ∀ word ∈ words a, accepted.lookup word = some a
  trimmed : ∀ a, ∀ word ∈ words a, Text.trim word.toList = word.toList

theorem flags_holds : Holds flags flagWords where
  mem := by decide
  lookup := by decide
  trimmed := by decide

theorem media_holds : Holds media mediumWords where
  mem := by decide
  lookup a := by cases a <;> decide
  trimmed a := by cases a <;> decide

variable {accepted : List (String × α)} {words : α → List String} {key : Variable} {unset : α}
variable {build : Build}

theorem Holds.means_iff (h : Holds accepted words) {value : String} {a : α} :
    Means words value a ↔ accepted.lookup (normal value) = some a := by
  have hnormal {word : String} (hword : word ∈ words a) :
      Text.Spells value.toList word.toList ↔ normal value = word := by
    rw [Text.spells_iff (h.trimmed a word hword), normal, ← String.toList_inj,
      String.toList_ofList]
  constructor
  · rintro ⟨word, hword, hs⟩
    rw [(hnormal hword).mp hs]
    exact h.lookup a word hword
  · intro hl
    obtain ⟨before, behind, hsplit, -⟩ := List.lookup_eq_some_iff.mp hl
    have hword : normal value ∈ words a := by
      apply h.mem (normal value, a)
      rw [hsplit]
      exact List.mem_append_right _ List.mem_cons_self
    exact ⟨normal value, hword, (hnormal hword).mpr rfl⟩

/-- What a variable stands for: the meaning of its value, or what it is when unset. -/
def StandsFor (words : α → List String) (unset : α) : Option String → α → Prop
  | none, a => a = unset
  | some value, a => Means words value a

theorem Holds.readVariable_eq_ok_iff (h : Holds accepted words) {given : Option String} {a : α} :
    readVariable key accepted unset given = .ok a ↔ StandsFor words unset given a := by
  cases given with
  | none => simp [readVariable, StandsFor, eq_comm]
  | some value =>
      rw [StandsFor, h.means_iff, readVariable]
      cases accepted.lookup (normal value) <;> simp

theorem Holds.readVariable_eq_error_iff (h : Holds accepted words) {given : Option String}
    {e : SettingError} :
    readVariable key accepted unset given = .error e ↔
      e.key = key ∧ given = some e.value ∧ ¬ ∃ a, Means words e.value a := by
  cases given with
  | none => simp [readVariable]
  | some value =>
      simp only [h.means_iff, readVariable]
      cases hl : accepted.lookup (normal value) with
      | some a =>
          simp only [reduceCtorEq, false_iff, not_and, not_not, Option.some.injEq]
          rintro - rfl
          exact ⟨a, hl⟩
      | none =>
          constructor
          · intro he
            cases he
            simp [hl]
          · rintro ⟨rfl, hvalue, -⟩
            cases hvalue
            rfl

theorem exists_standsFor_iff {given : Option String} :
    (∃ a, StandsFor words unset given a) ↔ ∀ value ∈ given, ∃ a, Means words value a := by
  cases given with
  | none => simp [StandsFor]
  | some value => simp [StandsFor]

/-- Both results are the same, or they refuse values of the same variable. -/
inductive Agree : Except SettingError α → Except SettingError α → Prop
  | ok (a : α) : Agree (.ok a) (.ok a)
  | error {e e' : SettingError} (hkey : e.key = e'.key) : Agree (.error e) (.error e')

theorem Agree.bind {x y : Except SettingError α} {f g : α → Except SettingError β}
    (h : Agree x y) (hf : ∀ a, Agree (f a) (g a)) : Agree (x >>= f) (y >>= g) := by
  cases h with
  | ok a => exact hf a
  | error hkey => exact .error hkey

theorem agree_readVariable {given other : Option String} (h : given.Rel SpelledAlike other) :
    Agree (readVariable key accepted unset given) (readVariable key accepted unset other) := by
  cases h with
  | none => exact .ok unset
  | some hspelled =>
      rw [readVariable, readVariable, normal_eq_of_spelledAlike hspelled]
      split
      · exact .ok _
      · exact .error rfl

theorem agree_read {lookup other : Variable → Option String}
    (h : ∀ key, (lookup key).Rel SpelledAlike (other key)) :
    Agree (read lookup build) (read other build) := by
  refine (agree_readVariable (h .enabled)).bind fun enabled => ?_
  refine (agree_readVariable (h .medium)).bind fun medium => ?_
  exact (agree_readVariable (h .sandbox)).bind fun sandbox => .ok _

theorem bind_eq_ok_iff {x : Except SettingError α} {f : α → Except SettingError β} {b : β} :
    x >>= f = .ok b ↔ ∃ a, x = .ok a ∧ f a = .ok b := by
  cases x with
  | ok a => simp [bind, Except.bind]
  | error e => simp [bind, Except.bind]

theorem bind_eq_error_iff {x : Except SettingError α} {f : α → Except SettingError β}
    {e : SettingError} :
    x >>= f = .error e ↔ x = .error e ∨ ∃ a, x = .ok a ∧ f a = .error e := by
  cases x with
  | ok a => simp [bind, Except.bind]
  | error e => simp [bind, Except.bind]

/-- No value that is given to the variable is a bad one. -/
def Passes (lookup : Variable → Option String) (key : Variable) : Prop :=
  ∀ value ∈ lookup key, Accepts key value

/-- Each setting is what its own variable stands for. Without a value a debug build logs, lines go
to a terminal and nothing is sandboxed. -/
structure Chosen (lookup : Variable → Option String) (build : Build) (s : Settings) : Prop where
  enabled : StandsFor flagWords (decide (build = .debug)) (lookup .enabled) s.enabled
  medium : StandsFor mediumWords .terminal (lookup .medium) s.medium
  sandbox : StandsFor flagWords false (lookup .sandbox) s.sandbox

theorem default_eq (build : Build) :
    default build = ⟨decide (build = .debug), .terminal, false⟩ := by
  cases build <;> rfl

theorem read_eq_ok_iff {lookup : Variable → Option String} {s : Settings} :
    read lookup build = .ok s ↔ Chosen lookup build s := by
  simp only [read, default_eq, bind_eq_ok_iff, flags_holds.readVariable_eq_ok_iff,
    media_holds.readVariable_eq_ok_iff]
  constructor
  · rintro ⟨enabled, henabled, medium, hmedium, sandbox, hsandbox, hs⟩
    cases hs
    exact ⟨henabled, hmedium, hsandbox⟩
  · rintro ⟨henabled, hmedium, hsandbox⟩
    exact ⟨_, henabled, _, hmedium, _, hsandbox, rfl⟩

/-- The error is about the first bad value and has it as it was given. -/
structure Refused (lookup : Variable → Option String) (e : SettingError) : Prop where
  given : lookup e.key = some e.value
  bad : ¬ Accepts e.key e.value
  first : ∀ key ∈ earlier e.key, Passes lookup key

theorem read_eq_error_iff {lookup : Variable → Option String} {e : SettingError} :
    read lookup build = .error e ↔ Refused lookup e := by
  have henabled : (∃ enabled, StandsFor flagWords (default build).enabled (lookup .enabled)
      enabled) ↔ Passes lookup .enabled := exists_standsFor_iff
  have hmedium : (∃ medium, StandsFor mediumWords (default build).medium (lookup .medium)
      medium) ↔ Passes lookup .medium := exists_standsFor_iff
  simp only [read, bind_eq_error_iff, pure, Except.pure, reduceCtorEq, and_false, exists_false,
    or_false, exists_and_right, flags_holds.readVariable_eq_ok_iff,
    media_holds.readVariable_eq_ok_iff, flags_holds.readVariable_eq_error_iff,
    media_holds.readVariable_eq_error_iff, henabled, hmedium]
  obtain ⟨key, value⟩ := e
  constructor
  · rintro (⟨rfl, hgiven, hbad⟩ | ⟨hfirst, ⟨rfl, hgiven, hbad⟩ | ⟨hsecond, rfl, hgiven, hbad⟩⟩)
    · exact ⟨hgiven, hbad, by simp [earlier]⟩
    · exact ⟨hgiven, hbad, by simpa [earlier] using hfirst⟩
    · exact ⟨hgiven, hbad, by simpa [earlier] using ⟨hfirst, hsecond⟩⟩
  · rintro ⟨hgiven, hbad, hfirst⟩
    cases key with
    | enabled => exact .inl ⟨rfl, hgiven, hbad⟩
    | medium =>
        have henabled := hfirst .enabled List.mem_cons_self
        exact .inr ⟨henabled, .inl ⟨rfl, hgiven, hbad⟩⟩
    | sandbox =>
        have henabled := hfirst .enabled List.mem_cons_self
        have hmedium := hfirst .medium (List.mem_cons_of_mem _ List.mem_cons_self)
        exact .inr ⟨henabled, .inr ⟨hmedium, rfl, hgiven, hbad⟩⟩

theorem exists_chosen_iff {lookup : Variable → Option String} :
    (∃ s, Chosen lookup build s) ↔ ∀ key, Passes lookup key := by
  constructor
  · rintro ⟨s, henabled, hmedium, hsandbox⟩ key
    cases key with
    | enabled => exact exists_standsFor_iff.mp ⟨s.enabled, henabled⟩
    | medium => exact exists_standsFor_iff.mp ⟨s.medium, hmedium⟩
    | sandbox => exact exists_standsFor_iff.mp ⟨s.sandbox, hsandbox⟩
  · intro h
    obtain ⟨enabled, henabled⟩ := exists_standsFor_iff.mpr (h .enabled)
    obtain ⟨medium, hmedium⟩ := exists_standsFor_iff.mpr (h .medium)
    obtain ⟨sandbox, hsandbox⟩ := exists_standsFor_iff.mpr (h .sandbox)
    exact ⟨⟨enabled, medium, sandbox⟩, henabled, hmedium, hsandbox⟩

/-- Settings are read exactly when no value that is given is a bad one, and each is then what its
own variable stands for. Otherwise the first bad value is refused. Assignments that are spelled
alike are read alike, and when settings are refused a demonstration prints what it prints without
any. All of this holds in a debug build and in a release build. -/
theorem read_first_bad (lookup : Variable → Option String) (build : Build) :
    ((∃ s, read lookup build = .ok s) ↔ ∀ key, Passes lookup key) ∧
      (∀ s, read lookup build = .ok s ↔ Chosen lookup build s) ∧
      (∀ e, read lookup build = .error e ↔ Refused lookup e) ∧
      (∀ other, (∀ key, (lookup key).Rel SpelledAlike (other key)) →
        Agree (read lookup build) (read other build)) ∧
      ∀ e, read lookup build = .error e →
        Demo.output lookup build = Demo.output (fun _ => none) build := by
  refine ⟨?_, fun s => read_eq_ok_iff, fun e => read_eq_error_iff, fun other => agree_read, ?_⟩
  · simp only [read_eq_ok_iff, exists_chosen_iff]
  · intro e he
    rw [Demo.output, Demo.output, Demo.settings, he]
    rfl

/-- A good value in capitals between blanks, and a bad one behind it. -/
theorem read_first_bad_sandbox :
    let lookup : Variable → Option String
      | .enabled => some "\tOFF\u00a0"
      | .medium => none
      | .sandbox => some " maybe"
    let other : Variable → Option String
      | .enabled => some "off"
      | .medium => none
      | .sandbox => some "Maybe"
    read lookup = .error ⟨.sandbox, " maybe"⟩ ∧ Refused lookup ⟨.sandbox, " maybe"⟩ ∧
      Agree (read lookup) (read other) ∧ Demo.output lookup = Demo.output fun _ => none := by
  intro lookup other
  have hread : read lookup = .error ⟨.sandbox, " maybe"⟩ := by rfl
  obtain ⟨-, -, hrefused, hagree, houtput⟩ := read_first_bad lookup .debug
  refine ⟨hread, (hrefused _).mp hread, hagree other ?_, houtput _ hread⟩
  intro key
  cases key with
  | enabled =>
      refine .some ⟨"off".toList, ⟨['\t'], "OFF".toList, ['\u00a0'], rfl, ?_, ?_, rfl⟩, ?_⟩
      · exact List.forall_mem_singleton.mpr rfl
      · exact List.forall_mem_singleton.mpr rfl
      · exact ⟨[], "off".toList, [], rfl, List.forall_mem_nil _, List.forall_mem_nil _, rfl⟩
  | medium => exact .none
  | sandbox =>
      refine .some ⟨"maybe".toList, ⟨[' '], "maybe".toList, [], rfl, ?_, ?_, rfl⟩, ?_⟩
      · exact List.forall_mem_singleton.mpr rfl
      · exact List.forall_mem_nil _
      · exact ⟨[], "Maybe".toList, [], rfl, List.forall_mem_nil _, List.forall_mem_nil _, rfl⟩

end Settings
end RenderLog
