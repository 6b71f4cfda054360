import RenderLog.Proofs.Paths

/-!
# Call sites by their walk

A call site is read off in one pass over the frames. It is what a walk in words gives: of the
frames with a place, those up to the first unit count. The path is their places, and the trace
is the place of the last of them that has a function outside the logger.

The names of hooks are laid down here on the whole name, without the search that looks for
them from left to right.
-/
namespace RenderLog

/-- A hook is named from its first character on, or behind a point inside the name. -/
def HookName (name : String) : Prop :=
  "use".toList <+: name.toList ∨
    ∃ front back, front ≠ [] ∧ back ≠ [] ∧ name.toList = front ++ ".use".toList ++ back

theorem containsHook_iff (cs : List Char) :
    containsHook cs = true ↔ ∃ front back, back ≠ [] ∧ cs = front ++ hookMember ++ back := by
  induction cs with
  | nil => simp [containsHook, hookMember]
  | cons c rest ih =>
      rw [containsHook, Bool.or_eq_true, ih, Bool.and_eq_true, List.isPrefixOf_iff_prefix,
        decide_eq_true_iff]
      constructor
      · rintro (⟨⟨back, hback⟩, hlt⟩ | ⟨front, back, hne, rfl⟩)
        · refine ⟨[], back, ?_, by simpa using hback.symm⟩
          intro hnil
          have hlength := congrArg List.length hback
          simp only [hnil, List.length_append, List.length_cons, List.length_nil] at hlength
          omega
        · exact ⟨c :: front, back, hne, rfl⟩
      · rintro ⟨front, back, hne, heq⟩
        cases front with
        | nil =>
            left
            have hlength := congrArg List.length heq
            have hpos := List.length_pos_iff.mpr hne
            simp only [List.nil_append, List.length_append, List.length_cons] at hlength
            exact ⟨⟨back, by simpa using heq.symm⟩, by omega⟩
        | cons d front =>
            right
            exact ⟨front, back, hne, (List.cons.inj heq).2⟩

theorem isHook_iff (name : String) : isHook name.toList = true ↔ HookName name := by
  rw [isHook, Bool.or_eq_true, List.isPrefixOf_iff_prefix, containsHook_iff, HookName]
  refine or_congr Iff.rfl ?_
  constructor
  · rintro ⟨front, back, hne, htail⟩
    cases hname : name.toList with
    | nil => simp [hname, hookMember] at htail
    | cons c rest =>
        rw [hname, List.tail_cons] at htail
        exact ⟨c :: front, back, by simp, hne, by rw [htail]; rfl⟩
  · rintro ⟨front, back, hfront, hne, hname⟩
    obtain ⟨c, front, rfl⟩ := List.exists_cons_of_ne_nil hfront
    exact ⟨front, back, hne, by rw [hname]; rfl⟩

namespace Frame

/-- The walk ends at the frame of a function that is no hook. -/
def Stops (f : Frame) : Prop := f.function ≠ "" ∧ ¬ HookName f.function

/-- The function of the frame is known and lies outside the logger. -/
def Calls (f : Frame) : Prop := f.function ≠ "" ∧ ¬ entryPoint <+: f.function.toList

instance Calls.decidable : DecidablePred Calls := fun _ => inferInstanceAs (Decidable (_ ∧ _))

theorem isUnit_iff (f : Frame) : f.isUnit = true ↔ f.Stops := by
  rw [isUnit, Bool.and_eq_true, Bool.not_eq_true', Bool.not_eq_true', Stops, ← isHook_iff,
    Bool.not_eq_true]
  simp

theorem isCaller_iff (f : Frame) : f.isCaller = true ↔ f.Calls := by
  rw [isCaller, Calls, Bool.and_eq_true, Bool.not_eq_true', Bool.not_eq_true',
    ← Bool.not_eq_true (entryPoint.isPrefixOf _), List.isPrefixOf_iff_prefix]
  simp

end Frame

namespace CallSite
variable {frames w : List Frame}

/-- The frames with a place, up to and with the first that stops the walk; all of them if none
does. -/
def WalksTo (frames w : List Frame) : Prop :=
  let placed := frames.filter fun f => f.location ≠ ""
  (∀ f ∈ placed, ¬ f.Stops) ∧ w = placed ∨
    ∃ front f back, placed = front ++ f :: back ∧ (∀ g ∈ front, ¬ g.Stops) ∧ f.Stops ∧
      w = front ++ [f]

/-- The place of the last frame that lies outside the logger, none without such a frame. -/
def lastPlace (w : List Frame) : String :=
  ((w.filter fun f => f.Calls).getLast?.map Frame.location).getD ""

section Unit
variable {front back placed : List Frame} {f : Frame}

theorem take_of_no_unit (h : ∀ f ∈ placed, ¬ f.isUnit = true) :
    placed.take (placed.findIdx Frame.isUnit + 1) = placed := by
  rw [List.findIdx_eq_length_of_false (by simpa using h), List.take_of_length_le (Nat.le_succ _)]

theorem take_of_first_unit (hfront : ∀ g ∈ front, ¬ g.isUnit = true) (hf : f.isUnit = true) :
    (front ++ f :: back).take ((front ++ f :: back).findIdx Frame.isUnit + 1) = front ++ [f] := by
  induction front with
  | nil => simp [List.findIdx_cons, hf]
  | cons g front ih =>
      obtain ⟨hg, hgs⟩ := List.forall_mem_cons.mp hfront
      rw [List.cons_append, List.findIdx_cons, Bool.eq_false_iff.mpr hg, Bool.cond_false,
        List.take_succ_cons, ih hgs]
      rfl

end Unit

theorem walksTo_iff : WalksTo frames w ↔ w = walked frames := by
  have hplaced : (frames.filter fun f => f.location ≠ "") =
      frames.filter fun f => !f.location.isEmpty := by
    apply List.filter_congr
    intro f _
    by_cases h : f.location = "" <;> simp [h]
  unfold WalksTo walked
  rw [hplaced]
  dsimp only
  generalize frames.filter (fun f => !f.location.isEmpty) = placed
  simp only [← Frame.isUnit_iff]
  constructor
  · rintro (⟨hnone, rfl⟩ | ⟨front, f, back, rfl, hfront, hf, rfl⟩)
    · rw [take_of_no_unit hnone]
    · rw [take_of_first_unit hfront hf]
  · rintro rfl
    cases hfind : placed.find? Frame.isUnit with
    | none =>
        have hnone := List.find?_eq_none.mp hfind
        exact .inl ⟨hnone, take_of_no_unit hnone⟩
    | some f =>
        obtain ⟨hf, front, back, rfl, hfront⟩ := List.find?_eq_some_iff_append.mp hfind
        have hnone : ∀ g ∈ front, ¬ g.isUnit = true := by simpa using hfront
        exact .inr ⟨front, f, back, rfl, hnone, hf, take_of_first_unit hnone hf⟩

theorem location_ne_of_mem_walked {f : Frame} (h : f ∈ walked frames) : f.location ≠ "" := by
  have hplaced := (List.mem_filter.mp (List.mem_of_mem_take h)).2
  simpa using hplaced

theorem lastPlace_cons (f : Frame) (w : List Frame) (h : ∀ g ∈ w, g.location ≠ "") :
    lastPlace (f :: w) =
      if lastPlace w = "" ∧ f.Calls then f.location else lastPlace w := by
  unfold lastPlace
  cases hlast : (w.filter fun f => f.Calls).getLast? with
  | none =>
      have hnil := List.getLast?_eq_none_iff.mp hlast
      by_cases hf : f.Calls <;> simp [hf, hnil]
  | some g =>
      have hmem := List.mem_of_getLast? hlast
      have hg := h g (List.mem_of_mem_filter hmem)
      by_cases hf : f.Calls <;> simp [hf, hlast, hg, List.getLast?_cons]

theorem trace_ofFrames (frames : List Frame) :
    (ofFrames frames).trace = lastPlace (walked frames) := by
  have hafter (site : CallSite) (f : Frame) : (site.after f).trace =
      if site.trace = "" ∧ f.Calls then f.location else site.trace := by
    simp [after, Frame.isCaller_iff]
  induction frames with
  | nil => rfl
  | cons f frames ih =>
      rw [ofFrames, walked_cons]
      split
      · exact ih
      · split
        · rw [hafter, lastPlace_cons f [] (by simp)]
          rfl
        · rw [hafter, lastPlace_cons f _ fun g hg => location_ne_of_mem_walked hg, ih]

/-- What stands behind the frame at which the walk ends is not looked at. -/
theorem ofFrames_append {f : Frame} (hf : f ∈ frames) (hplace : f.location ≠ "")
    (hstops : f.Stops) (more : List Frame) : ofFrames (frames ++ more) = ofFrames frames := by
  induction frames with
  | nil => cases hf
  | cons g frames ih =>
      rw [List.cons_append, ofFrames, ofFrames]
      split
      · next hg =>
          have hne : f ≠ g := by
            rintro rfl
            simp [hplace] at hg
          exact ih (List.mem_of_ne_of_mem hne hf)
      · split
        · rfl
        · next hg =>
            have hne : f ≠ g := by
              rintro rfl
              exact hg (f.isUnit_iff.mpr hstops)
            rw [ih (List.mem_of_ne_of_mem hne hf)]

/-- A call site is what the walk over its frames gives. The frames behind the one that ends the
walk make no difference to it. -/
theorem ofFrames_walksTo (frames : List Frame) :
    (∃ w, (∀ other, WalksTo frames other ↔ other = w) ∧
      (ofFrames frames).path = String.join (w.map fun f => f.location ++ ",") ∧
      (ofFrames frames).trace = lastPlace w) ∧
    ∀ f ∈ frames, f.location ≠ "" → f.Stops →
      ∀ more, ofFrames (frames ++ more) = ofFrames frames := by
  refine ⟨⟨walked frames, fun other => walksTo_iff, ?_, trace_ofFrames frames⟩, ?_⟩
  · rw [← String.toList_inj, toList_path, String.toList_join, locations, List.flatMap_map,
      List.flatMap_map]
    simp
  · intro f hf hplace hstops more
    exact ofFrames_append hf hplace hstops more

/-- A member that is a hook is walked over; a name that begins with the point is no hook. -/
theorem ofFrames_walksTo_pointed :
    let frames : List Frame :=
      [⟨"use_lifecycle_log", "lib.rs:1"⟩, ⟨"Store.use_store", "store.rs:2"⟩, ⟨"", "gap.rs:3"⟩,
       ⟨".use_store", "app.rs:4"⟩]
    let more : List Frame := [⟨"App", "app.rs:9"⟩]
    WalksTo frames frames ∧
      (ofFrames frames).path = "lib.rs:1,store.rs:2,gap.rs:3,app.rs:4," ∧
      (ofFrames frames).trace = "app.rs:4" ∧ ofFrames (frames ++ more) = ofFrames frames := by
  intro frames more
  obtain ⟨⟨w, hwalk, hpath, htrace⟩, hmore⟩ := ofFrames_walksTo frames
  have hstops : (⟨".use_store", "app.rs:4"⟩ : Frame).Stops := by
    rw [← Frame.isUnit_iff]
    decide
  have hw : frames = w := (hwalk frames).mp (walksTo_iff.mpr (by decide))
  subst hw
  refine ⟨(hwalk frames).mpr rfl, hpath, htrace.trans (by decide), ?_⟩
  exact hmore ⟨".use_store", "app.rs:4"⟩ (by decide) (by decide) hstops more

end CallSite
end RenderLog
