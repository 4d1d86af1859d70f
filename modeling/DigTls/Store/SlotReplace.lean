import DigTls.Store.Replace
import DigTls.Store.Slots
import DigTls.Store.Veiled
import DigTls.Store.Windows

/-! # What a slot write does to the slot files

A directory is looked at through its slot files. Put through its file-system program, a new file is in
place or the old one is; on Unix it may be in place without an answer, on Windows both may be missing.
-/
namespace DigTls
open EffectPrograms PosixVolume Volume
variable {B : Backend} {α : Type} {os : Platform} {hidden : Set String} {s t u : Volume String} {f : SlotFile}
  {a b : Slots}

def slotsOf (s : Volume String) : Slots := ⟨if s.present then some fun f => s.contents f.path else none⟩

@[simp] theorem slotsOf_files : (slotsOf s).files.isSome = s.present := by
  cases hp : s.present <;> simp [slotsOf, hp]

@[simp] theorem slotsOf_contents (f : SlotFile) : (slotsOf s).contents f = s.contents f.path := by
  cases hp : s.present with
  | true => simp [slotsOf, Slots.contents, hp]
  | false => simp [slotsOf, Slots.contents, hp, Volume.contents, Volume.lookup]

theorem slotsOf_eq (hp : t.present = a.files.isSome) (hsame : ∀ f, t.contents f.path = a.contents f) :
    slotsOf t = a := Slots.ext_contents (by simpa using hp) (by simpa using hsame)

theorem slotsOf_congr (hp : t.present = s.present) (hsame : ∀ f : SlotFile, t.contents f.path = s.contents f.path) :
    slotsOf t = slotsOf s := slotsOf_eq (by simpa using hp) (by simpa using hsame)

theorem slotsOf_set {contents : Option Bytes} (hp : t.present = s.present) (hs : s.present = true)
    (hself : t.contents f.path = contents) (hothers : ∀ g, g ≠ f → t.contents g.path = s.contents g.path) :
    slotsOf t = (slotsOf s).set f contents := by
  refine slotsOf_eq (by simpa using hp) fun g => ?_
  by_cases hg : g = f
  · subst hg
    rw [hself, Slots.contents_set_self (by simpa using hs)]
  · rw [hothers g hg, Slots.contents_set_of_ne hg, slotsOf_contents]

theorem slotsOf_syncDir (s : Volume String) : slotsOf (Volume.run .syncDir s).2 = slotsOf s := by
  cases hp : s.present with
  | true =>
    rw [run_syncDir hp]
    rfl
  | false =>
    have hrun : Volume.run .syncDir s = (.error .notFound, s) := by simp [Volume.run, hp]
    rw [hrun]

/-- The directory is a possible one, and these are its slot files. -/
def Displays (s : Volume String) (a : Slots) : Prop := s.Tracked ∧ slotsOf s = a

theorem raises_orFail {r : Except IoError α} : (orFail r).Raises fun e => ∃ i, e = .io i := by
  cases r with
  | ok a => trivial
  | error e => exact ⟨e, rfl⟩

theorem raises_atomicWrite (os : Platform) (dest : String) (contents : Bytes) (secret : Secret) :
    (atomicWrite os dest contents secret).Raises fun e => ∃ i, e = .io i := by
  have hcall : ∀ {β : Type} {op : Op String} {back : op.Res → Except IoError β},
      (.call op fun r => orFail (back r) : Task β).Raises fun e => ∃ i, e = .io i := fun r => raises_orFail
  have hstage : (stage os (tmpPath dest) contents secret).Raises fun e => ∃ i, e = .io i := by
    cases secret with
    | no => exact Program.Raises.bind hcall fun _ => hcall
    | yes =>
      cases os with
      | windows => exact Program.Raises.bind hcall fun _ => hcall
      | unix => exact Program.Raises.bind hcall fun _ => Program.Raises.bind hcall fun _ => hcall
  refine hstage.bind fun _ => Program.Raises.bind hcall fun _ => Program.Raises.bind hcall fun _ => ?_
  cases os with
  | unix => exact Program.Raises.bind hcall fun _ => hcall
  | windows =>
    refine Program.Raises.bind (fun r => ?_) fun _ => trivial
    cases r with
    | ok _ => trivial
    | error e =>
      intro b
      cases b with
      | true =>
        change (removeFile dest >>= fun _ => fsRename (tmpPath dest) dest).Raises _
        exact Program.Raises.bind hcall fun _ => hcall
      | false => exact ⟨e, rfl⟩

/-- What a slot write leaves of the slot files. -/
inductive Puts (os : Platform) (f : SlotFile) (contents : Bytes) (s : Volume String) :
    Option (Except DigTlsError Unit) → Volume String → Prop
  | kept {o : Option (Except DigTlsError Unit)} {t : Volume String} (same : slotsOf t = slotsOf s)
      (unanswered : o ≠ some (.ok ())) : Puts os f contents s o t
  | replaced {o : Option (Except DigTlsError Unit)} {t : Volume String} (there : s.present = true)
      (new : slotsOf t = (slotsOf s).set f (some contents)) (answered : os = .windows → o = some (.ok ())) :
      Puts os f contents s o t
  | removed {o : Option (Except DigTlsError Unit)} {t : Volume String} (hos : os = .windows)
      (gone : slotsOf t = (slotsOf s).set f none) (unanswered : o ≠ some (.ok ())) : Puts os f contents s o t

theorem can_veiled (hidden : Set String) {p : Task α} {o : Option (Except DigTlsError α)}
    (h : Can (posix String) p s o t) : Can (veiled hidden) p s o t := by
  obtain ⟨trace, h⟩ := h
  exact ⟨trace, veiled_outcome hidden h⟩

theorem puts_unix (hs : s.Tracked) (contents : Bytes) : Ensures (veiled hidden)
    (atomicWrite .unix f.path contents f.secret) s fun _ o t => Puts .unix f contents s o t := by
  have hleaves := ensures_veiled hidden (ensures_atomicWrite hs f.path contents f.secret)
  have hreplaced := (untested_atomicWrite f.path contents f.secret).ensures hidden
    (results_atomicWrite hs.toWf (tmpPath_ne f.path) contents f.secret)
  refine (Ensures.and hleaves hreplaced).mono ?_
  rintro trace o t ⟨hwrite, -, -, helse, hdest⟩
  have hothers : ∀ g : SlotFile, g ≠ f → t.contents g.path = s.contents g.path := fun g hg =>
    helse g.path (fun heq => hg (SlotFile.path_injective heq)) (SlotFile.path_ne_tmpPath g f)
  rcases hdest with ⟨_, hsame, hno⟩ | ⟨_, hnew, _⟩
  · refine .kept (slotsOf_congr hwrite.present fun g => ?_) (hno ())
    by_cases hg : g = f
    · rw [hg, hsame]
    · exact hothers g hg
  · have hthere : t.present = true := by
      have hlookup : (t.lookup f.path).isSome := by rw [← contents_isSome, hnew]; rfl
      obtain ⟨i, hi⟩ := Option.isSome_iff_exists.mp hlookup
      exact (lookup_eq_some_iff.mp hi).1
    have hs' : s.present = true := hwrite.present ▸ hthere
    exact .replaced hs' (slotsOf_set hwrite.present hs' hnew hothers) (by simp)

/-- A replacement on Windows with its answer. A test that misses the target leaves it. -/
inductive Renames (source target : String) (file : ℕ) (s : Volume String) :
    Option (Except DigTlsError Unit) → Volume String → Prop
  | kept {o : Option (Except DigTlsError Unit)} (unanswered : o ≠ some (.ok ())) : Renames source target file s o s
  | moved : Renames source target file s (some (.ok ())) (s.moved source target file)
  | removed {o : Option (Except DigTlsError Unit)} (unanswered : o ≠ some (.ok ())) :
      Renames source target file s o (s.relink target none)
  | replaced : Renames source target file s (some (.ok ())) ((s.relink target none).moved source target file)

theorem ensures_renames {source target : String} {file : ℕ} (hl : s.lookup source = some file) (hne : source ≠ target) :
    Ensures (veiled hidden) (atomicRename .windows source target) s fun _ o t => Renames source target file s o t := by
  refine Ensures.call_of_run (rename_eq hne hl) (Ensures.done .moved) ?_ ?_
  · rintro _ _ ⟨⟨⟩⟩
    refine Ensures.call ?_ ?_ ?_
    · change Ensures _ (if (s.lookup target).isSome = true then _ else _) s _
      cases htarget : s.lookup target with
      | none => exact Ensures.raise (.kept (by simp))
      | some i =>
        refine Ensures.call_of_run (run_removeFile htarget) ?_ ?_ ?_
        · have hl' : (s.relink target none).lookup source = some file := by rw [lookup_relink_of_ne hne, hl]
          refine Ensures.call_of_run (rename_eq hne hl') (Ensures.done .replaced) ?_ ?_
          · rintro _ _ ⟨⟨⟩⟩
            exact Ensures.raise (.removed (by simp))
          · rintro _ ⟨⟩
            exact .removed (by simp)
        · rintro _ _ ⟨⟨⟩⟩
          exact Ensures.raise (.kept (by simp))
        · rintro _ ⟨⟩
          exact .kept (by simp)
    · rintro _ _ (⟨⟨⟩⟩ | _)
      exact Ensures.raise (.kept (by simp))
    · rintro _ ⟨⟩
      exact .kept (by simp)
  · rintro _ ⟨⟩
    exact .kept (by simp)

theorem puts_windows (hs : s.Tracked) (contents : Bytes) : Ensures (veiled hidden)
    (atomicWrite .windows f.path contents f.secret) s fun _ o t => Puts .windows f contents s o t := by
  rw [atomicWrite_prepared]
  refine Ensures.bind ((ensures_veiled hidden (prepares_prepared hs contents f.secret)).mono ?_)
  rintro trace o u ⟨-, hbeside, hready⟩
  have hstaged : slotsOf u = slotsOf s := slotsOf_congr hbeside.present fun g =>
    hbeside.contents hs.toWf (SlotFile.path_ne_tmpPath g f)
  rcases o with _ | e | _
  · exact .kept hstaged (by simp)
  · exact .kept hstaged (by simp)
  · obtain ⟨file, hl, hdata, _⟩ := hready () rfl
    have hthere : u.present = true := (lookup_eq_some_iff.mp hl).1
    have hs' : s.present = true := hbeside.present ▸ hthere
    have hapart : ∀ g : SlotFile, g ≠ f → g.path ≠ f.path := fun g hg heq => hg (SlotFile.path_injective heq)
    have hgone : slotsOf (u.relink f.path none) = (slotsOf s).set f none := by
      rw [← hstaged]
      refine slotsOf_set rfl hthere ?_ fun g hg => contents_relink_of_ne (hapart g hg) none
      rw [contents_eq_none_iff, lookup_relink_self hthere]
    have hmoved : ∀ v : Volume String, v.lookup (tmpPath f.path) = some file → (v.inode file).data = contents →
        (∀ g : SlotFile, g ≠ f → v.contents g.path = u.contents g.path) → v.present = u.present →
        slotsOf (v.moved (tmpPath f.path) f.path file) = (slotsOf s).set f (some contents) := by
      intro v hv hvdata hothers hpresent
      rw [← hstaged]
      refine slotsOf_set hpresent hthere ?_ fun g hg => ?_
      · rw [moved_contents_target (tmpPath_ne f.path) hv, hvdata]
      · rw [moved_contents_of_ne (SlotFile.path_ne_tmpPath g f) (hapart g hg), hothers g hg]
    refine Ensures.bind ((ensures_renames hl (tmpPath_ne f.path)).mono ?_)
    rintro trace' o' t hrename
    cases hrename with
    | moved => exact Ensures.done (.replaced hs' (hmoved u hl hdata (fun _ _ => rfl) rfl) fun _ => rfl)
    | replaced =>
      have hl' : (u.relink f.path none).lookup (tmpPath f.path) = some file := by
        rw [lookup_relink_of_ne (tmpPath_ne f.path), hl]
      refine Ensures.done (.replaced hs' (hmoved _ hl' hdata (fun g hg => ?_) rfl) fun _ => rfl)
      exact contents_relink_of_ne (hapart g hg) none
    | kept hno =>
      rcases o' with _ | e | _
      · exact .kept hstaged (by simp)
      · exact .kept hstaged (by simp)
      · exact absurd rfl hno
    | removed hno =>
      rcases o' with _ | e | _
      · exact .removed rfl hgone (by simp)
      · exact .removed rfl hgone (by simp)
      · exact absurd rfl hno

theorem puts (hs : s.Tracked) {contents : Bytes} {o : Option (Except DigTlsError Unit)}
    (h : Can (veiled hidden) (atomicWrite os f.path contents f.secret) s o t) : Puts os f contents s o t := by
  obtain ⟨trace, h⟩ := h
  cases os with
  | unix => exact puts_unix hs contents trace o t h
  | windows => exact puts_windows hs contents trace o t h

theorem atomicWrite_call (os : Platform) (dest : String) (contents : Bytes) (secret : Secret) :
    ∃ mode next, atomicWrite os dest contents secret = .call (.create (tmpPath dest) mode) next ∧
      ∀ e, next (.error e) = .raise (.io e) := by
  cases secret with
  | no => exact ⟨_, _, rfl, fun _ => rfl⟩
  | yes => cases os <;> exact ⟨_, _, rfl, fun _ => rfl⟩

theorem can_put_kept (os : Platform) (contents : Bytes) (s : Volume String) :
    Can (posix String) (atomicWrite os f.path contents f.secret) s none s ∧
      ∀ e, Can (posix String) (atomicWrite os f.path contents f.secret) s (some (.error (.io e))) s := by
  obtain ⟨mode, next, hcall, herror⟩ := atomicWrite_call os f.path contents f.secret
  rw [hcall]
  refine ⟨can_call_iff.mpr (Or.inr ⟨rfl, .stops (.unchanged _ _)⟩), fun e => ?_⟩
  refine can_call_iff.mpr (Or.inl ⟨.error e, s, .fails (.create _ _ _ _), ?_⟩)
  rw [herror]
  exact can_raise_iff.mpr ⟨rfl, rfl⟩

theorem Slots.answer_present (hp : s.present = true) : (slotsOf s).answer = .ok () := by simp [Slots.answer, hp]

theorem exec_put (os : Platform) (f : SlotFile) (contents : Bytes) (hs : s.Tracked) :
    ∃ t, exec (posix String) (atomicWrite os f.path contents f.secret) s = ((slotsOf s).answer, t) ∧
      slotsOf t = (slotsOf s).set f (some contents) := by
  cases hp : s.present with
  | true =>
    have hsucceeds : Succeeds s (atomicWrite os f.path contents f.secret) fun _ t => t.present = true :=
      succeeds_atomicWrite hp f.path contents f.secret
    obtain ⟨_, t, hexec, _⟩ := hsucceeds.completes
    have hcan := can_exec (M := posix String) (atomicWrite os f.path contents f.secret) s
    rw [hexec] at hcan
    refine ⟨t, by rw [hexec, Slots.answer_present hp], ?_⟩
    cases puts hs (can_veiled ∅ hcan) with
    | kept _ hno => exact absurd rfl hno
    | replaced _ hnew _ => exact hnew
    | removed _ _ hno => exact absurd rfl hno
  | false =>
    have hnone : (slotsOf s).files = none := by simp [slotsOf, hp]
    refine ⟨s, ?_, (Slots.set_eq_self hnone).symm⟩
    have hcreate : ∀ mode, s.create (tmpPath f.path) mode = (.error .notFound, s) := by
      intro mode
      simp [Volume.create, hp]
    obtain ⟨mode, next, hcall, herror⟩ := atomicWrite_call os f.path contents f.secret
    rw [hcall, exec_call]
    change exec (posix String) (next (s.create (tmpPath f.path) mode).1) (s.create (tmpPath f.path) mode).2 = _
    rw [hcreate, herror]
    simp [exec, Slots.answer, hnone]

theorem can_put_works (os : Platform) (f : SlotFile) (hs : s.Tracked) (hp : s.present = true) (contents : Bytes) :
    ∃ t, slotsOf t = (slotsOf s).set f (some contents) ∧
      Can (posix String) (atomicWrite os f.path contents f.secret) s (some (.ok ())) t := by
  obtain ⟨t, hexec, hnew⟩ := exec_put os f contents hs
  have hcan := can_exec (M := posix String) (atomicWrite os f.path contents f.secret) s
  rw [hexec, Slots.answer_present hp] at hcan
  exact ⟨t, hnew, hcan⟩

/-- On Unix the new file can be in place without the write having answered. -/
theorem can_put_replaced (hs : s.Tracked) (hp : s.present = true) (contents : Bytes) :
    ∃ t, slotsOf t = (slotsOf s).set f (some contents) ∧
      Can (posix String) (atomicWrite .unix f.path contents f.secret) s none t ∧
      ∀ e, Can (posix String) (atomicWrite .unix f.path contents f.secret) s (some (.error (.io e))) t := by
  have hsplit : atomicWrite .unix f.path contents f.secret =
      (prepared .unix (tmpPath f.path) contents f.secret >>= fun _ => fsRename (tmpPath f.path) f.path) >>=
        fun _ => syncDir := by
    rw [atomicWrite_prepared, Program.bind_assoc']
    rfl
  obtain ⟨v, hnew, hcan⟩ := can_put_works .unix f hs hp contents
  rw [hsplit] at hcan
  rcases can_bind_iff.mp hcan with ⟨_, u, hplaced, hsync⟩ | ⟨e, he, _⟩ | ⟨hnone, _⟩
  · have hsame : slotsOf u = slotsOf v := by
      rcases can_call_iff.mp hsync with ⟨r, w, hdoes, hend⟩ | ⟨ho, _⟩
      · have hw : slotsOf w = slotsOf u := by
          cases hdoes with
          | works => exact slotsOf_syncDir u
          | fails failed => cases failed; rfl
        have hv : v = w := by
          cases r with
          | ok a => exact (can_done_iff.mp hend).2
          | error e => exact (can_raise_iff.mp hend).2
        rw [hv, hw]
      · cases ho
    rw [hsplit]
    refine ⟨u, hsame.trans hnew, hplaced.bind (can_call_iff.mpr (Or.inr ⟨rfl, .stops (.unchanged _ _)⟩)), fun e => ?_⟩
    refine hplaced.bind (can_call_iff.mpr (Or.inl ⟨.error e, u, .fails (.syncDir _ _), ?_⟩))
    exact can_raise_iff.mpr ⟨rfl, rfl⟩
  · cases he
  · cases hnone

/-- On Windows the old file can be gone without the new one in its place. -/
theorem can_put_removed (hs : s.Tracked) (hthere : (s.contents f.path).isSome) (contents : Bytes) :
    ∃ t, slotsOf t = (slotsOf s).set f none ∧
      Can (posix String) (atomicWrite .windows f.path contents f.secret) s none t ∧
      ∀ e, Can (posix String) (atomicWrite .windows f.path contents f.secret) s (some (.error (.io e))) t := by
  have hp : s.present = true := by
    obtain ⟨i, hi⟩ := Option.isSome_iff_exists.mp (contents_isSome ▸ hthere)
    exact (lookup_eq_some_iff.mp hi).1
  obtain ⟨_, _, hcan⟩ := can_put_works .windows f hs hp contents
  rw [atomicWrite_prepared] at hcan ⊢
  rcases can_bind_iff.mp hcan with ⟨_, u, hprepared, _⟩ | ⟨e, he, _⟩ | ⟨hnone, _⟩
  · obtain ⟨trace, houtcome⟩ := hprepared
    have hbeside := (ensures_truthful (prepares_prepared hs contents f.secret) _ _ _ houtcome).2.1
    have hu : (u.contents f.path).isSome := by
      rwa [hbeside.contents hs.toWf (SlotFile.path_ne_tmpPath f f)]
    obtain ⟨i, hi⟩ := Option.isSome_iff_exists.mp (contents_isSome ▸ hu)
    have hpu : u.present = true := (lookup_eq_some_iff.mp hi).1
    have hgone : slotsOf (u.relink f.path none) = (slotsOf s).set f none := by
      have hstaged : slotsOf u = slotsOf s := slotsOf_congr hbeside.present fun g =>
        hbeside.contents hs.toWf (SlotFile.path_ne_tmpPath g f)
      rw [← hstaged]
      refine slotsOf_set rfl hpu ?_ fun g hg =>
        contents_relink_of_ne (fun heq => hg (SlotFile.path_injective heq)) none
      rw [contents_eq_none_iff, lookup_relink_self hpu]
    have hremove : ∀ o, Can (posix String) (fsRename (tmpPath f.path) f.path) (u.relink f.path none) o
        (u.relink f.path none) → Can (posix String) (atomicRename .windows (tmpPath f.path) f.path) u o
        (u.relink f.path none) := by
      intro o hlast
      refine can_call_iff.mpr (Or.inl ⟨.error .notFound, u, .fails (.rename _ _ _ _), ?_⟩)
      have hsees : Can (posix String) (pathExists f.path) u (some (.ok true)) u := by
        have hexec := can_exec (M := posix String) (pathExists f.path) u
        rwa [exec_pathExists, hu] at hexec
      have hgoes : Can (posix String) (removeFile f.path) u (some (.ok ())) (u.relink f.path none) := by
        refine can_call_iff.mpr (Or.inl ⟨.ok (), _, does_works (run_removeFile hi), ?_⟩)
        exact can_done_iff.mpr ⟨rfl, rfl⟩
      exact hsees.bind (hgoes.bind hlast)
    refine ⟨u.relink f.path none, hgone, ?_, fun e => ?_⟩
    · refine Can.bind ⟨trace, houtcome⟩ (Can.bind_cut (hremove none ?_))
      exact can_call_iff.mpr (Or.inr ⟨rfl, .stops (.unchanged _ _)⟩)
    · refine Can.bind ⟨trace, houtcome⟩ (Can.bind_error (hremove _ ?_))
      refine can_call_iff.mpr (Or.inl ⟨.error e, _, .fails (.rename _ _ _ _), can_raise_iff.mpr ⟨rfl, rfl⟩⟩)
  · cases he
  · cases hnone

end DigTls
