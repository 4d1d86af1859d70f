import DigTls.Store.Healthy
import DigTls.Store.Rotation

/-! # Operations that refuse

Each operation looks and mints first and changes files afterwards. An error before the first change
leaves the directory as it is, and after it there is no error left to come unless a change itself
fails: the writes find the directory and the sibling they have made, the deletions the file they
have seen.
-/
namespace DigTls
open EffectPrograms PosixVolume Volume
variable {B : Backend} {α : Type} {os : Platform} {s : Volume String} {A : α → Volume String → Prop}

/-- However looks go, an error leaves the directory as it is, and a good answer comes with `A`. -/
abbrev RefusesClean (s : Volume String) (p : Task α) (A : α → Volume String → Prop) : Prop :=
  Ends (obliging String) p s A fun t => t.listing = s.listing

theorem Succeeds.refuses {p : Task α} (h : Succeeds s p A) : RefusesClean s p fun _ _ => True :=
  h.mono (fun _ _ _ => trivial) fun _ => False.elim

theorem refuses_looks {p : Task α} (hp : p.Forall Op.Reads fun _ => True) :
    RefusesClean s p fun _ t => t = s :=
  (ends_looks hp).mono (fun _ _ h => h.1) fun _ h => congrArg listing h

/-- An existence test may miss a file, but it sees none that is not there. -/
theorem ends_pathExists {E : Volume String → Prop} (path : String) : Ends (obliging String) (pathExists path) s
    (fun there t => t = s ∧ (there = true → ∃ i, s.lookup path = some i)) E := by
  apply Ends.call
  · exact Ends.done ⟨rfl, Option.isSome_iff_exists.mp⟩
  · rintro r t ⟨hfault, _, _⟩
    cases hfault with
    | fault h => cases h
    | unseen => exact Ends.done ⟨rfl, by simp⟩

theorem refuses_bothExist (slot : Slot) : RefusesClean s (bothExist slot) fun both t =>
    t = s ∧ (both = true → s.present = true) := by
  refine (ends_pathExists slot.cert).bind fun there t ⟨ht, hthere⟩ => ?_
  cases there with
  | false => exact Ends.done ⟨ht, by simp⟩
  | true =>
    obtain ⟨i, hi⟩ := hthere rfl
    have hp := (lookup_eq_some_iff.mp hi).1
    rw [ht]
    exact (ends_pathExists slot.key).mono (fun _ _ h => ⟨h.1, fun _ => hp⟩) fun _ => id

theorem looks_loadSlot (slot : Slot) : (loadSlot B slot).Forall Op.Reads fun _ => True :=
  loadSlot_forall (fun _ => trivial) slot

/-- A directory that cannot be made is not there afterwards either. -/
theorem refuses_persistFresh (x : NodeCert) : RefusesClean s (persistFresh os x) fun _ _ => True := by
  refine Ends.bind (A := fun _ t => t.present = true) ?_ fun _ t hp => ?_
  · apply Ends.call
    · exact Ends.done (makePath_present s)
    · intro r t hf
      have hlisting := hf.listing
      obtain ⟨hfault, _, _⟩ := hf
      cases hfault with
      | fault h =>
        cases h
        exact Ends.raise hlisting
  · exact (succeeds_fresh hp x).mono (fun _ _ _ => trivial) fun _ => False.elim

theorem refuses_loadOrGenerate (m : NodeCert.Minting B) :
    RefusesClean s (loadOrGenerate os m) fun _ _ => True := by
  refine (refuses_bothExist currentSlot).bind fun both t ⟨ht, _⟩ => ?_
  rw [ht]
  cases both with
  | true => exact (refuses_looks (looks_loadSlot currentSlot)).mono (fun _ _ _ => trivial) fun _ => id
  | false =>
    change RefusesClean s (.ofExcept (NodeCert.generateSigned B m) >>= fun node => persistFresh os node) _
    cases NodeCert.generateSigned B m with
    | error e => exact Ends.raise rfl
    | ok node => exact refuses_persistFresh node

theorem refuses_rotate (m : NodeCert.Minting B) : RefusesClean s (rotate os m) fun _ _ => True := by
  refine (refuses_bothExist currentSlot).bind fun both t ⟨ht, hp⟩ => ?_
  rw [ht]
  cases both with
  | false => exact Ends.raise rfl
  | true =>
    refine (refuses_looks (eitherExists_forall (fun _ => trivial) prevSlot)).bind fun either t ht => ?_
    rw [ht]
    cases either with
    | true => exact Ends.raise rfl
    | false =>
      refine (refuses_looks (looks_loadSlot currentSlot)).bind fun previous t ht => ?_
      rw [ht]
      change RefusesClean s (.ofExcept (NodeCert.generateSigned B m) >>= fun current =>
        persistRotation os previous current) _
      cases NodeCert.generateSigned B m with
      | error e => exact Ends.raise rfl
      | ok current => exact (succeeds_persistRotation (hp rfl) previous current).refuses

theorem refuses_loadPrevious : RefusesClean s (loadPrevious B) fun _ _ => True := by
  have hlooks := refuses_looks (s := s) (loadPrevious_forall (B := B) (fun _ => trivial) fun _ => trivial)
  exact hlooks.mono (fun _ _ _ => trivial) fun _ => id

theorem succeeds_removeFile {path : String} {i : ℕ} (hl : s.lookup path = some i) :
    Succeeds s (removeFile path) fun _ _ => True := by
  refine Succeeds.call (a := ()) (by simp [Op.Reads]) ?_ trivial
  rw [run_removeFile hl]
  rfl

theorem succeeds_retireCert : Succeeds s retireCert fun _ _ => True := by
  refine (ends_pathExists certFilePrev).bind fun there t ⟨ht, hthere⟩ => ?_
  rw [ht]
  cases there with
  | false => exact Ends.done trivial
  | true =>
    obtain ⟨i, hi⟩ := hthere rfl
    exact succeeds_removeFile hi

/-- The key is read before it is deleted, and only the reading may fail. -/
theorem refuses_retireKey : RefusesClean s retireKey fun _ _ => True := by
  refine (ends_pathExists keyFilePrev).bind fun there t ⟨ht, hthere⟩ => ?_
  rw [ht]
  cases there with
  | false => exact Ends.done trivial
  | true =>
    obtain ⟨i, hi⟩ := hthere rfl
    have hread : (fsRead keyFilePrev).Forall Op.Reads fun _ => True := ⟨trivial, orFail_forall⟩
    refine (refuses_looks hread).bind fun _ t ht => ?_
    rw [ht]
    exact (succeeds_removeFile hi).refuses

/-- Once the key is gone no error is left to come. -/
theorem refuses_retirePrevious : RefusesClean s retirePrevious fun _ _ => True :=
  refuses_retireKey.bind fun _ _ _ =>
    succeeds_retireCert.mono (fun _ _ _ => trivial) fun _ => False.elim

theorem refuses_call (c : Call B) : RefusesClean s (c.program os) fun _ _ => True := by
  cases c with
  | loadOrGenerate m => exact (refuses_loadOrGenerate m).bind fun _ _ _ => Ends.done trivial
  | rotate m => exact (refuses_rotate m).bind fun _ _ _ => Ends.done trivial
  | loadPrevious => exact refuses_loadPrevious.bind fun _ _ _ => Ends.done trivial
  | retirePrevious => exact refuses_retirePrevious.bind fun _ _ _ => Ends.done trivial

/-- In every directory, on either platform, an operation that answers with an error has left the
directory, its mode and the contents and modes of all files as they were, as long as no call has
failed that writes, renames, syncs, sets permissions or deletes. -/
theorem refused_leaves_untouched {c : Call B} {t : Volume String} {trace : List (Op String)}
    {e : DigTlsError} (h : Outcome (obliging String) (c.program os) s trace (some (.error e)) t) :
    t.listing = s.listing :=
  (refuses_call c trace _ t h).2 e rfl

def halfPrevDir : Volume String := (exec (posix String) (fsWrite keyFilePrev [0xff]) settledDir).2

theorem refused_leaves_untouched_halfPrev : ∃ trace t,
    Outcome (obliging String) ((Call.rotate (toyMint 2 8)).program .unix) halfPrevDir trace
      (some (.error unretired)) t ∧ t.listing = halfPrevDir.listing := by
  have hanswer : (complete (.rotate (toyMint 2 8)) halfPrevDir).1 = .error unretired := by decide +kernel
  obtain ⟨trace, ho⟩ := outcome_exec (M := obliging String) ((Call.rotate (toyMint 2 8)).program .unix) halfPrevDir
  rw [exec_obliging] at ho
  change Outcome _ _ _ _ (some (complete (.rotate (toyMint 2 8)) halfPrevDir).1) _ at ho
  rw [hanswer] at ho
  exact ⟨trace, _, ho, refused_leaves_untouched ho⟩

end DigTls
