import Mathlib.Data.List.Induction
import RenderLog.Proofs.Numbering
import RenderLog.Registry

/-!
# Live keys of a registry

A registry keeps two numberings for every owner, one of call sites and one of
activations. After any operations the keys of each are those that were resolved
and not released since, and their numbers are those below the count.

An operation concerns one numbering: the other one of the same owner and both of
every other owner stay as they are. Resolving a live key and releasing an absent
one change nothing at all.
-/
namespace RenderLog

/-- What is numbered for an owner. -/
inductive Kind where
  | site | activation
  deriving DecidableEq, Repr

abbrev Kind.Key : Kind → Type
  | .site => String
  | .activation => ActivationId

instance : (kind : Kind) → DecidableEq kind.Key
  | .site => inferInstanceAs (DecidableEq String)
  | .activation => inferInstanceAs (DecidableEq ActivationId)

namespace Roster
variable {kind k : Kind}

def numbering (x : Roster) : (kind : Kind) → Numbering kind.Key
  | .site => x.sites
  | .activation => x.activations

def put (x : Roster) : (kind : Kind) → Numbering kind.Key → Roster
  | .site, sites => {x with sites := sites}
  | .activation, activations => {x with activations := activations}

@[simp] theorem numbering_put_self (x : Roster) (kind : Kind) (n : Numbering kind.Key) :
    (x.put kind n).numbering kind = n := by
  cases kind <;> rfl

theorem numbering_put_of_ne (x : Roster) (n : Numbering kind.Key) (h : k ≠ kind) :
    (x.put kind n).numbering k = x.numbering k := by
  cases kind <;> cases k <;> first | rfl | exact (h rfl).elim

@[simp] theorem put_numbering (x : Roster) (kind : Kind) : x.put kind (x.numbering kind) = x := by
  cases kind <;> rfl

end Roster

namespace Registry
variable {r : Registry} {owner o : Owner} {kind k : Kind} {key other : kind.Key} {i : Nat}

/-- One of the two numberings of an owner. -/
def numbering (r : Registry) (owner : Owner) (kind : Kind) : Numbering kind.Key :=
  (r.roster owner).numbering kind

def put (r : Registry) (owner : Owner) (kind : Kind) (n : Numbering kind.Key) : Registry :=
  r.setRoster owner ((r.roster owner).put kind n)

@[simp] theorem numbering_put_self (r : Registry) (owner : Owner) (kind : Kind)
    (n : Numbering kind.Key) : (r.put owner kind n).numbering owner kind = n := by
  simp [numbering, put]

/-- All other numberings are left alone. -/
theorem numbering_put_of_ne (r : Registry) (n : Numbering kind.Key) (h : o ≠ owner ∨ k ≠ kind) :
    (r.put owner kind n).numbering o k = r.numbering o k := by
  by_cases ho : o = owner
  · subst ho
    have hk : k ≠ kind := h.resolve_left fun hn => hn rfl
    rw [numbering, put, roster_setRoster_self, Roster.numbering_put_of_ne _ _ hk, numbering]
  · rw [numbering, put, roster_setRoster_of_ne _ _ ho, numbering]

@[simp] theorem put_numbering (r : Registry) (owner : Owner) (kind : Kind) :
    r.put owner kind (r.numbering owner kind) = r := by
  rw [put, numbering, Roster.put_numbering, setRoster, roster, Table.set_get_self]

/-- The count that the registry reports. -/
def count (r : Registry) (owner : Owner) : Kind → Nat
  | .site => r.siteCount owner
  | .activation => r.activationCount owner

theorem count_eq (r : Registry) (owner : Owner) (kind : Kind) :
    r.count owner kind = (r.numbering owner kind).count := by
  cases kind <;> rfl

def resolve (r : Registry) (owner : Owner) : (kind : Kind) → kind.Key → Nat × Registry
  | .site, path => r.numberSite owner path
  | .activation, id => r.numberActivation owner id

def release (r : Registry) (owner : Owner) : (kind : Kind) → kind.Key → Registry
  | .site, path => r.dropSite owner path
  | .activation, id => r.dropActivation owner id

theorem resolve_eq (r : Registry) (owner : Owner) (kind : Kind) (key : kind.Key) :
    r.resolve owner kind key =
      (((r.numbering owner kind).resolve key).1,
        r.put owner kind ((r.numbering owner kind).resolve key).2) := by
  cases kind <;> rfl

theorem release_eq (r : Registry) (owner : Owner) (kind : Kind) (key : kind.Key) :
    r.release owner kind key = r.put owner kind ((r.numbering owner kind).release key) := by
  cases kind <;> rfl

/-- What resolving and releasing a key does to the numbers. -/
structure Renumbers (r : Registry) (owner : Owner) (kind : Kind) (key : kind.Key) : Prop where
  /-- A live key is resolved to its number, without any change. -/
  resolve_live : ∀ i, (r.numbering owner kind).index? key = some i →
    r.resolve owner kind key = (i, r)
  /-- A new key takes the next number, and all others keep theirs. -/
  resolve_new : (r.numbering owner kind).index? key = none →
    (r.resolve owner kind key).1 = r.count owner kind ∧
      ∀ other, other ≠ key →
        ((r.resolve owner kind key).2.numbering owner kind).index? other =
          (r.numbering owner kind).index? other
  /-- The release of an absent key is no change. -/
  release_absent : (r.numbering owner kind).index? key = none → r.release owner kind key = r
  /-- The number of a live key goes to the key numbered last, and all others keep theirs. -/
  release_live : ∀ i, (r.numbering owner kind).index? key = some i →
    (r.release owner kind key).count owner kind + 1 = r.count owner kind ∧
      ∀ other, other ≠ key →
        ((r.release owner kind key).numbering owner kind).index? other =
          if (r.numbering owner kind).index? other = some (r.count owner kind - 1) then some i
          else (r.numbering owner kind).index? other
  resolve_elsewhere : ∀ o k, o ≠ owner ∨ k ≠ kind →
    (r.resolve owner kind key).2.numbering o k = r.numbering o k
  release_elsewhere : ∀ o k, o ≠ owner ∨ k ≠ kind →
    (r.release owner kind key).numbering o k = r.numbering o k

/-- No key of the registry has two numbers. -/
def Distinct (r : Registry) : Prop := ∀ owner kind, (r.numbering owner kind).Distinct

theorem distinct_empty : empty.Distinct := by
  intro owner kind
  cases kind <;> exact Numbering.distinct_empty

theorem Distinct.put (h : r.Distinct) {n : Numbering kind.Key} (hn : n.Distinct) :
    (r.put owner kind n).Distinct := by
  intro o k
  by_cases he : o ≠ owner ∨ k ≠ kind
  · rw [numbering_put_of_ne _ _ he]
    exact h o k
  · simp only [ne_eq, not_or, not_not] at he
    obtain ⟨rfl, rfl⟩ := he
    rw [numbering_put_self]
    exact hn

theorem Distinct.renumbers (h : r.Distinct) (owner : Owner) (kind : Kind) (key : kind.Key) :
    r.Renumbers owner kind key where
  resolve_live i hi := by
    rw [resolve_eq, Numbering.resolve_of_index? hi, put_numbering]
  resolve_new hn := by
    have hr := Numbering.resolve_of_not_mem (Numbering.index?_eq_none_iff.mp hn)
    rw [resolve_eq]
    refine ⟨?_, fun other hne => ?_⟩
    · rw [hr, count_eq]
    · rw [numbering_put_self, Numbering.index?_resolve_of_ne hne]
  release_absent hn := by
    rw [release_eq, Numbering.release_of_not_mem (Numbering.index?_eq_none_iff.mp hn),
      put_numbering]
  release_live i hi := by
    rw [release_eq, count_eq, count_eq, numbering_put_self]
    exact ⟨Numbering.count_release hi, fun other hne => (h owner kind).index?_release hi hne⟩
  resolve_elsewhere o k he := by rw [resolve_eq, numbering_put_of_ne _ _ he]
  release_elsewhere o k he := by rw [release_eq, numbering_put_of_ne _ _ he]

/-- A call of one of the four operations. -/
inductive Operation where
  | resolve (owner : Owner) (kind : Kind) (key : kind.Key)
  | release (owner : Owner) (kind : Kind) (key : kind.Key)

/-- The owner and the kind of the numbering that is concerned. -/
def Operation.concern : Operation → Owner × Kind
  | .resolve owner kind _ => (owner, kind)
  | .release owner kind _ => (owner, kind)

def perform (r : Registry) : Operation → Registry
  | .resolve owner kind key => (r.resolve owner kind key).2
  | .release owner kind key => r.release owner kind key

def after (r : Registry) (ops : List Operation) : Registry := ops.foldl perform r

theorem after_concat (r : Registry) (ops : List Operation) (op : Operation) :
    r.after (ops ++ [op]) = (r.after ops).perform op := List.foldl_concat _ _ _ _

/-- The key was resolved and not released since. -/
def Live (ops : List Operation) (owner : Owner) (kind : Kind) (key : kind.Key) : Prop :=
  ∃ past later, ops = past ++ .resolve owner kind key :: later ∧ .release owner kind key ∉ later

theorem not_live_nil : ¬ Live [] owner kind key := by
  rintro ⟨past, later, he, -⟩
  simp at he

/-- A key is live after an operation that resolves it, and stays so until its release. -/
theorem live_concat (ops : List Operation) (op : Operation) :
    Live (ops ++ [op]) owner kind key ↔
      op = .resolve owner kind key ∨ (Live ops owner kind key ∧ op ≠ .release owner kind key) := by
  constructor
  · rintro ⟨past, later, he, hr⟩
    rcases List.eq_nil_or_concat' later with rfl | ⟨later, last, rfl⟩
    · exact .inl (List.append_inj_right' he rfl |> List.singleton_inj.mp)
    · rw [← List.cons_append, ← List.append_assoc] at he
      obtain ⟨rfl, hl⟩ := List.append_inj' he rfl
      obtain rfl := List.singleton_inj.mp hl
      simp only [List.mem_append, List.mem_singleton, not_or] at hr
      exact .inr ⟨⟨past, later, rfl, hr.1⟩, Ne.symm hr.2⟩
  · rintro (rfl | ⟨⟨past, later, rfl, hr⟩, hne⟩)
    · exact ⟨ops, [], rfl, List.not_mem_nil⟩
    · refine ⟨past, later ++ [op], by simp, ?_⟩
      simp only [List.mem_append, List.mem_singleton, not_or]
      exact ⟨hr, Ne.symm hne⟩

theorem numbering_perform_of_ne (r : Registry) {op : Operation} (h : (owner, kind) ≠ op.concern) :
    (r.perform op).numbering owner kind = r.numbering owner kind := by
  rw [ne_eq, Prod.ext_iff, not_and_or] at h
  cases op with
  | resolve o k j =>
      rw [perform, resolve_eq]
      exact numbering_put_of_ne _ _ h
  | release o k j =>
      rw [perform, release_eq]
      exact numbering_put_of_ne _ _ h

/-- An operation makes the key that it resolves live and the one that it releases absent. -/
theorem Distinct.mem_perform (h : r.Distinct) (op : Operation) :
    key ∈ ((r.perform op).numbering owner kind).keys ↔
      op = .resolve owner kind key ∨
        (key ∈ (r.numbering owner kind).keys ∧ op ≠ .release owner kind key) := by
  by_cases he : (owner, kind) = op.concern
  · cases op with
    | resolve o k j =>
        cases he
        rw [perform, resolve_eq, numbering_put_self, Numbering.mem_resolve]
        simp [or_comm, eq_comm]
    | release o k j =>
        cases he
        rw [perform, release_eq, numbering_put_self, (h owner kind).mem_release]
        simp [eq_comm]
  · have hresolve : op ≠ .resolve owner kind key := by
      intro hop
      exact he (congrArg Operation.concern hop).symm
    have hrelease : op ≠ .release owner kind key := by
      intro hop
      exact he (congrArg Operation.concern hop).symm
    rw [numbering_perform_of_ne r he]
    simp [hresolve, hrelease]

theorem Distinct.perform (h : r.Distinct) (op : Operation) : (r.perform op).Distinct := by
  cases op with
  | resolve owner kind key =>
      rw [Registry.perform, resolve_eq]
      exact h.put ((h owner kind).resolve key)
  | release owner kind key =>
      rw [Registry.perform, release_eq]
      exact h.put ((h owner kind).release key)

theorem Distinct.after (h : r.Distinct) (ops : List Operation) : (r.after ops).Distinct := by
  induction ops using List.reverseRecOn with
  | nil => exact h
  | append_singleton ops op ih =>
      rw [after_concat]
      exact ih.perform op

theorem mem_numbering_after (ops : List Operation) :
    key ∈ ((empty.after ops).numbering owner kind).keys ↔ Live ops owner kind key := by
  induction ops using List.reverseRecOn with
  | nil =>
      refine iff_of_false ?_ not_live_nil
      cases kind <;> exact List.not_mem_nil
  | append_singleton ops op ih =>
      rw [after_concat, (distinct_empty.after ops).mem_perform, ih, live_concat]

/-- After any operations each numbering of an owner numbers its live keys, as many as the
registry counts, and every further operation changes numbers in the way laid down. -/
theorem numbers_live (ops : List Operation) :
    (∀ owner kind,
      ((empty.after ops).numbering owner kind).Numbers {key | Live ops owner kind key} ∧
        (empty.after ops).count owner kind = {key | Live ops owner kind key}.ncard) ∧
    ∀ owner kind key, (empty.after ops).Renumbers owner kind key := by
  have hd := distinct_empty.after ops
  constructor
  · intro owner kind
    have hn : ((empty.after ops).numbering owner kind).Numbers {key | Live ops owner kind key} :=
      (hd owner kind).numbers fun key => mem_numbering_after ops
    exact ⟨hn, (count_eq _ _ _).trans hn.count_eq_ncard⟩
  · exact fun owner kind key => hd.renumbers owner kind key

end Registry
end RenderLog
