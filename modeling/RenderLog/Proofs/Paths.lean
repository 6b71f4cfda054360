import RenderLog.CallSite
import RenderLog.Proofs.Numbering
import RenderLog.Registry

/-!
# What a path tells

The path of a call site is made of the locations of the frames walked, each with a
comma behind it. A comma inside a location looks like one behind it, so a path tells no
more than the parts that commas cut the locations into. Call sites with the same parts
have one path, and with it one number. Locations without commas are their own parts,
and then the path tells them all.
-/
namespace RenderLog
namespace CallSite

/-- The frames with a place, down to the unit that owns the call. -/
def walked (frames : List Frame) : List Frame :=
  let placed := frames.filter fun f => !f.location.isEmpty
  placed.take (placed.findIdx Frame.isUnit + 1)

theorem walked_cons (f : Frame) (frames : List Frame) :
    walked (f :: frames) =
      if f.location.isEmpty then walked frames
      else if f.isUnit then [f]
      else f :: walked frames := by
  unfold walked
  cases he : f.location.isEmpty with
  | true => simp [he]
  | false =>
      cases hu : f.isUnit with
      | true => simp [he, hu, List.findIdx_cons]
      | false => simp [he, hu, List.findIdx_cons]

def locations (frames : List Frame) : List String := (walked frames).map Frame.location

/-- A path is the locations with a comma behind each. -/
theorem toList_path (frames : List Frame) :
    (ofFrames frames).path.toList =
      (locations frames).flatMap fun l => l.toList ++ [','] := by
  induction frames with
  | nil => rfl
  | cons f frames ih =>
      rw [ofFrames, locations, walked_cons]
      split
      · exact ih
      · split
        · simp [after, empty]
        · simp only [after, String.toList_append, ih, List.map_cons, List.flatMap_cons]
          rfl

def parts (frames : List Frame) : List (List Char) :=
  (locations frames).flatMap fun l => l.toList.splitOn ','

theorem splitOn_terminated (texts : List String) :
    (texts.flatMap fun l => l.toList ++ [',']).splitOn ',' =
      (texts.flatMap fun l => l.toList.splitOn ',') ++ [[]] := by
  simp only [List.splitOn_eq_splitOnP]
  induction texts with
  | nil => rfl
  | cons l texts ih =>
      rw [List.flatMap_cons, List.flatMap_cons, List.append_assoc, List.singleton_append,
        List.splitOnP_append_cons _ _ (by simp), ih, List.append_assoc]

theorem path_eq_iff (frames others : List Frame) :
    (ofFrames frames).path = (ofFrames others).path ↔ parts frames = parts others := by
  have hcut (frames : List Frame) :
      (ofFrames frames).path.toList.splitOn ',' = parts frames ++ [[]] := by
    rw [toList_path, splitOn_terminated]
    rfl
  constructor
  · intro h
    have hparts : parts frames ++ [[]] = parts others ++ [[]] := by rw [← hcut, ← hcut, h]
    exact List.append_cancel_right hparts
  · intro h
    have hjoin (frames : List Frame) :
        (ofFrames frames).path.toList = [','].intercalate (parts frames ++ [[]]) := by
      rw [← hcut, List.intercalate_splitOn]
    apply String.toList_inj.mp
    rw [hjoin, hjoin, h]

theorem parts_of_forall {frames : List Frame} (h : ∀ l ∈ locations frames, ',' ∉ l.toList) :
    parts frames = (locations frames).map String.toList := by
  unfold parts
  generalize locations frames = texts at h
  induction texts with
  | nil => rfl
  | cons l texts ih =>
      have hl : l.toList.splitOn ',' = [l.toList] := by
        rw [List.splitOn_eq_splitOnP]
        apply List.splitOnP_eq_singleton
        intro c hc
        have hne : c ≠ ',' := fun he => h l List.mem_cons_self (he ▸ hc)
        simpa using hne
      rw [List.flatMap_cons, List.map_cons, hl, ih fun k hk => h k (List.mem_cons_of_mem _ hk)]
      rfl

/-- Stacks of frames are told apart by their paths, and by their numbers wherever both call sites
are live. -/
structure ToldApart (frames others : List Frame) : Prop where
  path : (ofFrames frames).path ≠ (ofFrames others).path
  number : ∀ (r : Registry) (owner : Owner),
    (ofFrames frames).path ∈ (r.roster owner).sites.keys →
    (ofFrames others).path ∈ (r.roster owner).sites.keys →
    (r.numberSite owner (ofFrames frames).path).1 ≠ (r.numberSite owner (ofFrames others).path).1

theorem toldApart_iff_path {frames others : List Frame} :
    ToldApart frames others ↔ (ofFrames frames).path ≠ (ofFrames others).path := by
  constructor
  · exact ToldApart.path
  · intro hne
    refine ⟨hne, ?_⟩
    intro r owner hlive hlive' hnumber
    apply hne
    exact (Numbering.resolve_eq_iff_of_mem hlive hlive').mp hnumber

/-- Call sites are told apart exactly when commas cut their locations into different parts. If no
location has a comma, that is when the locations are different. -/
theorem toldApart_iff (frames others : List Frame) :
    (ToldApart frames others ↔ parts frames ≠ parts others) ∧
      ((∀ l ∈ locations frames ++ locations others, ',' ∉ l.toList) →
        (ToldApart frames others ↔ locations frames ≠ locations others)) := by
  have hparts : ToldApart frames others ↔ parts frames ≠ parts others := by
    rw [toldApart_iff_path, ne_eq, path_eq_iff]
  refine ⟨hparts, ?_⟩
  intro hcomma
  have hframes := parts_of_forall fun l hl => hcomma l (List.mem_append_left _ hl)
  have hothers := parts_of_forall fun l hl => hcomma l (List.mem_append_right _ hl)
  have hinj : Function.Injective String.toList := fun s t h => String.toList_inj.mp h
  rw [hparts, hframes, hothers, ne_eq, (List.map_injective_iff.mpr hinj).eq_iff]

/-- One place whose name has a comma, and two places. -/
theorem not_toldApart_comma :
    let one : List Frame := [⟨"use_store", "store.rs:4,view.rs:7"⟩, ⟨"App", "app.rs:9"⟩]
    let two : List Frame :=
      [⟨"use_store", "store.rs:4"⟩, ⟨"use_view", "view.rs:7"⟩, ⟨"App", "app.rs:9"⟩]
    locations one = ["store.rs:4,view.rs:7", "app.rs:9"] ∧
      locations two = ["store.rs:4", "view.rs:7", "app.rs:9"] ∧
      locations one ≠ locations two ∧ ¬ ToldApart one two := by
  intro one two
  refine ⟨rfl, rfl, by decide, ?_⟩
  intro h
  exact h.path rfl

end CallSite
end RenderLog
