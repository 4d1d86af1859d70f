import DigTls.Store.SlotReplace

/-! # The directory can do what the slots can, and no more

Each call on the slots is compared with the file-system program that carries it out: whatever comes
of the program, its answer or its being cut short and the slot files it leaves, can come of the call,
and the other way round. What is not a slot file, the staged siblings above all, is out of sight.
-/
namespace DigTls
open EffectPrograms PosixVolume Volume
variable {B : Backend} {α : Type} {os : Platform} {hidden : Set String} {s t u : Volume String} {f : SlotFile}
  {a b : Slots}

/-- What can come of one file-system call whose error is an answer. -/
theorem can_attempt_call_iff (op : Op String) (back : op.Res → Except IoError α)
    {o : Option (Except DigTlsError (Except DigTlsError α))} :
    Can (veiled hidden) ((.call op fun r => orFail (back r) : Task α).attempt) s o t ↔
      ∃ r, (veiled hidden).Does op s r t ∧ o = r.map fun r => .ok ((back r).mapError .io) := by
  have hend : ∀ (r : op.Res) (o' : Option (Except DigTlsError α)) (v : Volume String),
      Can (veiled hidden) (orFail (back r)) v o' t ↔ o' = some ((back r).mapError .io) ∧ t = v := by
    intro r o' v
    cases back r with
    | ok x => exact can_done_iff
    | error e => exact can_raise_iff
  simp only [can_attempt_iff, can_call_iff, hend]
  constructor
  · rintro ⟨_, ⟨r, v, hdoes, rfl, rfl⟩ | ⟨rfl, hdoes⟩, rfl⟩
    · exact ⟨some r, hdoes, rfl⟩
    · exact ⟨none, hdoes, rfl⟩
  · rintro ⟨_ | r, hdoes, rfl⟩
    · exact ⟨none, Or.inr ⟨rfl, hdoes⟩, rfl⟩
    · exact ⟨_, Or.inl ⟨r, t, hdoes, rfl, rfl⟩, rfl⟩

theorem readToString_textOf (path : String) :
    ((Volume.run (.readToString path) s).1).mapError DigTlsError.io = textOf (s.contents path) := by
  cases hc : s.contents path with
  | none => simp [Volume.run, hc, textOf, Except.mapError]
  | some bytes => cases ht : fromUtf8 bytes <;> simp [Volume.run, hc, ht, textOf, Except.mapError]

theorem read_bytesOf (path : String) : (Volume.run (.read path) s).2 = s ∧
    ((Volume.run (.read path) s).1).mapError DigTlsError.io = bytesOf (s.contents path) := by
  cases hc : s.contents path <;> simp [Volume.run, hc, bytesOf, Except.mapError]

theorem tracked_can {p : Task α} {o : Option (Except DigTlsError α)} (hs : s.Tracked)
    (h : Can (veiled hidden) p s o t) : t.Tracked := by
  obtain ⟨trace, h⟩ := h
  exact tracked_veiled hs h

theorem slotsOf_made (hs : s.Tracked) (k : ℕ) :
    slotsOf (s.makePath k) = if (s.makePath k).present then (slotsOf s).made else slotsOf s := by
  have hsame : ∀ f : SlotFile, (s.makePath k).contents f.path = s.contents f.path :=
    fun f => (makePath_spec hs.toWf k).2 f.path
  cases hp : (s.makePath k).present with
  | true => exact slotsOf_eq (by simpa using hp) (by simpa using hsame)
  | false =>
    have habsent : s.present = false := by
      by_contra hs'
      have hkept : s.makePath k = s := if_pos (by simpa using hs')
      rw [hkept] at hp
      exact hs' hp
    exact slotsOf_congr (hp.trans habsent.symm) hsame

theorem sound_there {o : Option (Except DigTlsError Bool)} (h : Can (veiled hidden) (pathExists f.path) s o t) :
    ∃ r, o = r.map .ok ∧ (slots os hidden).Does (.there f) (slotsOf s) r (slotsOf t) := by
  rcases can_call_iff.mp h with ⟨r, u, hdoes, hend⟩ | ⟨rfl, hdoes⟩
  · obtain ⟨rfl, rfl⟩ := can_done_iff.mp hend
    refine ⟨some r, rfl, ?_⟩
    cases hdoes with
    | works => exact does_works (Prod.ext (by simp [slots, Slots.run, veiled, posix, Volume.run, contents_isSome]) rfl)
    | fails failed =>
      rcases failed with ⟨⟨⟩⟩ | hpath
      exact .fails (.unseen hpath _)
  · cases hdoes with
    | stops cut =>
      rw [Partial.eq_of_whole cut trivial]
      exact ⟨none, rfl, .stops (.there f _)⟩

theorem sound_text {o : Option (Except DigTlsError (Except DigTlsError String))}
    (h : Can (veiled hidden) (readToString f.path).attempt s o t) :
    ∃ r, o = r.map .ok ∧ (slots os hidden).Does (.text f) (slotsOf s) r (slotsOf t) := by
  obtain ⟨r, hdoes, rfl⟩ := (can_attempt_call_iff (.readToString f.path) fun r => r).mp h
  cases hdoes with
  | works =>
    refine ⟨some _, rfl, does_works (Prod.ext ?_ ?_)⟩
    · exact (congrArg textOf (slotsOf_contents f)).trans (readToString_textOf f.path).symm
    · exact congrArg slotsOf (run_readToString f.path s).1.symm
  | fails failed =>
    obtain ⟨⟨⟩⟩ := failed
    exact ⟨some _, rfl, .fails (.text _ (.text f _))⟩
  | stops cut =>
    rw [Partial.eq_of_whole cut trivial]
    exact ⟨none, rfl, .stops (.text f _)⟩

theorem sound_bytes {o : Option (Except DigTlsError (Except DigTlsError Bytes))}
    (h : Can (veiled hidden) (fsRead f.path).attempt s o t) :
    ∃ r, o = r.map .ok ∧ (slots os hidden).Does (.bytes f) (slotsOf s) r (slotsOf t) := by
  obtain ⟨r, hdoes, rfl⟩ := (can_attempt_call_iff (.read f.path) fun r => r).mp h
  cases hdoes with
  | works =>
    refine ⟨some _, rfl, does_works (Prod.ext ?_ ?_)⟩
    · exact (congrArg bytesOf (slotsOf_contents f)).trans (read_bytesOf f.path).2.symm
    · exact congrArg slotsOf (read_bytesOf f.path).1.symm
  | fails failed =>
    obtain ⟨⟨⟩⟩ := failed
    exact ⟨some _, rfl, .fails (.bytes _ (.bytes f _))⟩
  | stops cut =>
    rw [Partial.eq_of_whole cut trivial]
    exact ⟨none, rfl, .stops (.bytes f _)⟩

theorem sound_put (hs : s.Tracked) {contents : Bytes} {o : Option (Except DigTlsError (Except DigTlsError Unit))}
    (h : Can (veiled hidden) (atomicWrite os f.path contents f.secret).attempt s o t) :
    ∃ r, o = r.map .ok ∧ (slots os hidden).Does (.put f contents) (slotsOf s) r (slotsOf t) := by
  obtain ⟨r, hcan, rfl⟩ := can_attempt_iff.mp h
  have hfalls : ∀ {b : Slots}, slotsOf t = b → Falls os (.put f contents) (slotsOf s) b → r ≠ some (.ok ()) →
      (slots os hidden).Does (.put f contents) (slotsOf s) r (slotsOf t) := by
    rintro b rfl hleft hno
    rcases r with _ | e | _
    · exact .stops hleft
    · obtain ⟨i, rfl⟩ := hcan.raises (raises_atomicWrite os f.path contents f.secret)
      exact .fails (.put i hleft)
    · exact absurd rfl hno
  refine ⟨r, rfl, ?_⟩
  cases puts hs hcan with
  | kept hsame hno => exact hfalls hsame (.kept f contents _) hno
  | removed hos hgone hno => exact hfalls hgone (.removed f contents _ hos) hno
  | replaced hthere hnew hanswered =>
    by_cases hr : r = some (.ok ())
    · subst hr
      exact does_works (Prod.ext (Slots.answer_present hthere) hnew.symm)
    · refine hfalls hnew (.replaced f contents _ ?_) hr
      cases os with
      | unix => rfl
      | windows => exact absurd (hanswered rfl) hr

theorem run_delete (os : Platform) (f : SlotFile) (s : Volume String) : (slots os hidden).run (.delete f) (slotsOf s) =
    ((Volume.run (.removeFile f.path) s).1.mapError DigTlsError.io, slotsOf (Volume.run (.removeFile f.path) s).2) := by
  change (if ((slotsOf s).contents f).isSome = true then _ else _) = _
  rw [slotsOf_contents, contents_isSome]
  cases hl : s.lookup f.path with
  | none =>
    have hrun : Volume.run (.removeFile f.path) s = (.error .notFound, s) := by
      simp [Volume.run, Volume.removeFile, hl]
    rw [hrun]
    rfl
  | some i =>
    have hp : s.present = true := (lookup_eq_some_iff.mp hl).1
    have hgone : slotsOf (s.relink f.path none) = (slotsOf s).set f none := by
      refine slotsOf_set rfl hp ?_ fun g hg =>
        contents_relink_of_ne (fun heq => hg (SlotFile.path_injective heq)) none
      rw [contents_eq_none_iff, lookup_relink_self hp]
    rw [run_removeFile hl, hgone]
    rfl

theorem sound_delete {o : Option (Except DigTlsError (Except DigTlsError Unit))}
    (h : Can (veiled hidden) (removeFile f.path).attempt s o t) :
    ∃ r, o = r.map .ok ∧ (slots os hidden).Does (.delete f) (slotsOf s) r (slotsOf t) := by
  obtain ⟨r, hdoes, rfl⟩ := (can_attempt_call_iff (.removeFile f.path) fun r => r).mp h
  cases hdoes with
  | works => exact ⟨some _, rfl, does_works (run_delete os f s)⟩
  | fails failed =>
    obtain ⟨⟨⟩⟩ := failed
    exact ⟨some _, rfl, .fails (.delete _ (.delete f _))⟩
  | stops cut =>
    rw [Partial.eq_of_whole cut trivial]
    exact ⟨none, rfl, .stops (.delete f _)⟩

theorem falls_makeDir (hs : s.Tracked) (h : Volume.Partial .createDirAll s t) :
    Falls os .makeDir (slotsOf s) (slotsOf t) := by
  cases h with
  | unchanged => exact .unmade _
  | dug k _ _ =>
    rw [slotsOf_made hs]
    split_ifs
    · exact .made _
    · exact .unmade _

theorem sound_makeDir (hs : s.Tracked) {o : Option (Except DigTlsError (Except DigTlsError Unit))}
    (h : Can (veiled hidden) createDirAll.attempt s o t) :
    ∃ r, o = r.map .ok ∧ (slots os hidden).Does .makeDir (slotsOf s) r (slotsOf t) := by
  obtain ⟨r, hdoes, rfl⟩ := (can_attempt_call_iff (.createDirAll) fun r => r).mp h
  cases hdoes with
  | works =>
    refine ⟨some _, rfl, does_works (Prod.ext rfl ?_)⟩
    exact ((slotsOf_made hs s.depth).trans (if_pos (makePath_present s))).symm
  | fails failed =>
    cases failed with
    | fault failed =>
      cases failed with
      | createDirAll _ _ e left => exact ⟨some _, rfl, .fails (.makeDir e (falls_makeDir hs left))⟩
  | stops cut => exact ⟨none, rfl, .stops (falls_makeDir hs cut)⟩

theorem slotsOf_setDirPermissions (mode : Mode) : slotsOf (Volume.run (.setDirPermissions mode) s).2 = slotsOf s ∧
    ((Volume.run (.setDirPermissions mode) s).1).mapError DigTlsError.io = (slotsOf s).answer := by
  cases hp : s.present with
  | true =>
    rw [run_setDirPermissions hp, Slots.answer_present hp]
    exact ⟨rfl, rfl⟩
  | false =>
    have hrun : Volume.run (.setDirPermissions mode) s = (.error .notFound, s) := by simp [Volume.run, hp]
    rw [hrun]
    simp [Slots.answer, hp, Except.mapError]

theorem sound_harden {o : Option (Except DigTlsError (Except DigTlsError Unit))}
    (h : Can (veiled hidden) (hardenDirPermissions os).attempt s o t) :
    ∃ r, o = r.map .ok ∧ (slots os hidden).Does .harden (slotsOf s) r (slotsOf t) := by
  cases os with
  | windows =>
    obtain ⟨r, hcan, rfl⟩ := can_attempt_iff.mp h
    obtain ⟨rfl, rfl⟩ := can_done_iff.mp hcan
    exact ⟨_, rfl, does_works rfl⟩
  | unix =>
    obtain ⟨r, hdoes, rfl⟩ := (can_attempt_call_iff (.setDirPermissions 0o700#12) fun r => r).mp h
    cases hdoes with
    | works =>
      obtain ⟨hsame, hanswer⟩ := slotsOf_setDirPermissions (s := s) 0o700#12
      exact ⟨some _, rfl, does_works (Prod.ext hanswer.symm hsame.symm)⟩
    | fails failed =>
      obtain ⟨⟨⟩⟩ := failed
      exact ⟨some _, rfl, .fails (.harden _ (.harden _ rfl))⟩
    | stops cut =>
      rw [Partial.eq_of_whole cut trivial]
      exact ⟨none, rfl, .stops (.harden _ rfl)⟩

theorem sound_implement {op : SlotOp} (hs : s.Tracked) {o : Option (Except DigTlsError op.Res)}
    (h : Can (veiled hidden) (implement os op) s o t) :
    ∃ r, o = r.map .ok ∧ (slots os hidden).Does op (slotsOf s) r (slotsOf t) := by
  cases op with
  | there f => exact sound_there h
  | text f => exact sound_text h
  | bytes f => exact sound_bytes h
  | put f contents => exact sound_put hs h
  | delete f => exact sound_delete h
  | makeDir => exact sound_makeDir hs h
  | harden => exact sound_harden h

theorem complete_there {r : Option Bool} (h : (slots os hidden).Does (.there f) (slotsOf s) r b) :
    ∃ t, slotsOf t = b ∧ Can (veiled hidden) (pathExists f.path) s (r.map .ok) t := by
  rcases does_iff.mp h with ⟨rfl, rfl⟩ | ⟨_, rfl, hpath | _⟩ | ⟨rfl, ⟨⟩⟩
  · refine ⟨s, rfl, ?_⟩
    have hcan := can_exec (M := posix String) (pathExists f.path) s
    rw [exec_pathExists, ← slotsOf_contents] at hcan
    exact can_veiled hidden hcan
  · exact ⟨s, rfl, can_call_iff.mpr (Or.inl ⟨false, s, .fails (.unseen hpath s), can_done_iff.mpr ⟨rfl, rfl⟩⟩)⟩
  · exact ⟨s, rfl, can_call_iff.mpr (Or.inr ⟨rfl, .stops (.unchanged _ _)⟩)⟩

theorem complete_text {r : Option (Except DigTlsError String)} (h : (slots os hidden).Does (.text f) (slotsOf s) r b) :
    ∃ t, slotsOf t = b ∧ Can (veiled hidden) (readToString f.path).attempt s
      (r.map .ok : Option (Except DigTlsError (Except DigTlsError String))) t := by
  have hcan := @can_attempt_call_iff String
  rcases does_iff.mp h with ⟨rfl, rfl⟩ | ⟨_, rfl, failed⟩ | ⟨rfl, cut⟩
  · refine ⟨_, congrArg slotsOf (run_readToString f.path s).1, (hcan (.readToString f.path) id).mpr ⟨_, .works, ?_⟩⟩
    have hanswer : textOf ((slotsOf s).contents f) = textOf (s.contents f.path) := congrArg textOf (slotsOf_contents f)
    exact congrArg (fun x => some (Except.ok x)) (hanswer.trans (readToString_textOf f.path).symm)
  · cases failed with
    | text e left =>
      cases left
      exact ⟨s, rfl, (hcan (.readToString f.path) id).mpr ⟨some (.error e), .fails (.fault (.readToString _ _ _)), rfl⟩⟩
  · cases cut
    exact ⟨s, rfl, (hcan (.readToString f.path) id).mpr ⟨none, .stops (.unchanged _ _), rfl⟩⟩

theorem complete_bytes {r : Option (Except DigTlsError Bytes)} (h : (slots os hidden).Does (.bytes f) (slotsOf s) r b) :
    ∃ t, slotsOf t = b ∧ Can (veiled hidden) (fsRead f.path).attempt s
      (r.map .ok : Option (Except DigTlsError (Except DigTlsError Bytes))) t := by
  have hcan := @can_attempt_call_iff Bytes
  rcases does_iff.mp h with ⟨rfl, rfl⟩ | ⟨_, rfl, failed⟩ | ⟨rfl, cut⟩
  · refine ⟨_, congrArg slotsOf (read_bytesOf f.path).1, (hcan (.read f.path) id).mpr ⟨_, .works, ?_⟩⟩
    have hanswer : bytesOf ((slotsOf s).contents f) = bytesOf (s.contents f.path) :=
      congrArg bytesOf (slotsOf_contents f)
    exact congrArg (fun x => some (Except.ok x)) (hanswer.trans (read_bytesOf f.path).2.symm)
  · cases failed with
    | bytes e left =>
      cases left
      exact ⟨s, rfl, (hcan (.read f.path) id).mpr ⟨some (.error e), .fails (.fault (.read _ _ _)), rfl⟩⟩
  · cases cut
    exact ⟨s, rfl, (hcan (.read f.path) id).mpr ⟨none, .stops (.unchanged _ _), rfl⟩⟩

theorem Slots.set_none_eq (h : a.contents f = none) : a.set f none = a := by
  refine Slots.ext_contents (by simp) fun g => ?_
  by_cases hg : g = f
  · subst hg
    cases ha : a.files with
    | none => rw [Slots.set_eq_self ha]
    | some files => rw [Slots.contents_set_self (by simp [ha]), h]
  · exact Slots.contents_set_of_ne hg

theorem complete_falls {contents : Bytes} (hs : s.Tracked) (h : Falls os (.put f contents) (slotsOf s) b) :
    ∃ t, slotsOf t = b ∧ Can (posix String) (atomicWrite os f.path contents f.secret) s none t ∧
      ∀ e, Can (posix String) (atomicWrite os f.path contents f.secret) s (some (.error (.io e))) t := by
  cases h with
  | kept => exact ⟨s, rfl, can_put_kept os contents s⟩
  | replaced _ _ _ hos =>
    subst hos
    cases hp : s.present with
    | true => exact can_put_replaced hs hp contents
    | false =>
      refine ⟨s, (Slots.set_eq_self ?_).symm, can_put_kept .unix contents s⟩
      simp [slotsOf, hp]
  | removed _ _ _ hos =>
    subst hos
    cases hc : s.contents f.path with
    | some bytes => exact can_put_removed hs (by rw [hc]; rfl) contents
    | none => exact ⟨s, (Slots.set_none_eq (by simpa using hc)).symm, can_put_kept .windows contents s⟩

theorem complete_put {contents : Bytes} {r : Option (Except DigTlsError Unit)} (hs : s.Tracked)
    (h : (slots os hidden).Does (.put f contents) (slotsOf s) r b) :
    ∃ t, slotsOf t = b ∧ Can (veiled hidden) (atomicWrite os f.path contents f.secret).attempt s
      (r.map .ok : Option (Except DigTlsError (Except DigTlsError Unit))) t := by
  rcases does_iff.mp h with ⟨rfl, rfl⟩ | ⟨_, rfl, failed⟩ | ⟨rfl, cut⟩
  · cases hp : s.present with
    | true =>
      obtain ⟨t, hnew, hcan⟩ := can_put_works os f hs hp contents
      have hanswer := Slots.answer_present hp
      refine ⟨t, hnew, ?_⟩
      simp only [slots, Slots.run, hanswer]
      exact (can_veiled hidden hcan).attempt
    | false =>
      have hnone : (slotsOf s).files = none := by simp [slotsOf, hp]
      refine ⟨s, (Slots.set_eq_self hnone).symm, ?_⟩
      have hanswer : (slotsOf s).answer = .error (.io .notFound) := by simp [Slots.answer, hnone]
      simp only [slots, Slots.run, hanswer]
      exact (can_veiled hidden ((can_put_kept os contents s).2 .notFound)).attempt
  · cases failed with
    | put e left =>
      obtain ⟨t, ht, _, hfails⟩ := complete_falls hs left
      exact ⟨t, ht, (can_veiled hidden (hfails e)).attempt⟩
  · obtain ⟨t, ht, hcut, _⟩ := complete_falls hs cut
    exact ⟨t, ht, (can_veiled hidden hcut).attempt⟩

theorem complete_delete {r : Option (Except DigTlsError Unit)}
    (h : (slots os hidden).Does (.delete f) (slotsOf s) r b) :
    ∃ t, slotsOf t = b ∧ Can (veiled hidden) (removeFile f.path).attempt s
      (r.map .ok : Option (Except DigTlsError (Except DigTlsError Unit))) t := by
  have hcan := @can_attempt_call_iff Unit
  rcases does_iff.mp h with ⟨rfl, rfl⟩ | ⟨_, rfl, failed⟩ | ⟨rfl, cut⟩
  · rw [run_delete]
    exact ⟨_, rfl, (hcan (.removeFile f.path) id).mpr ⟨_, .works, rfl⟩⟩
  · cases failed with
    | delete e left =>
      cases left
      exact ⟨s, rfl, (hcan (.removeFile f.path) id).mpr ⟨some (.error e), .fails (.fault (.removeFile _ _ _)), rfl⟩⟩
  · cases cut
    exact ⟨s, rfl, (hcan (.removeFile f.path) id).mpr ⟨none, .stops (.unchanged _ _), rfl⟩⟩

theorem complete_left_makeDir (hs : s.Tracked) (h : Falls os .makeDir (slotsOf s) b) :
    ∃ t, slotsOf t = b ∧ Volume.Partial .createDirAll s t := by
  cases h with
  | unmade => exact ⟨s, rfl, .unchanged _ _⟩
  | made =>
    have hmade : slotsOf (s.makePath s.depth) = (slotsOf s).made :=
      (slotsOf_made hs s.depth).trans (if_pos (makePath_present s))
    refine ⟨s.makePath s.depth, hmade, ?_⟩
    cases hp : s.present with
    | true =>
      have hkept : s.makePath s.depth = s := if_pos hp
      rw [hkept]
      exact .unchanged _ _
    | false =>
      refine .dug s s.depth ?_ le_rfl
      simp only [Volume.present, decide_eq_false_iff_not] at hp
      omega

theorem complete_makeDir {r : Option (Except DigTlsError Unit)} (hs : s.Tracked)
    (h : (slots os hidden).Does .makeDir (slotsOf s) r b) :
    ∃ t, slotsOf t = b ∧ Can (veiled hidden) createDirAll.attempt s
      (r.map .ok : Option (Except DigTlsError (Except DigTlsError Unit))) t := by
  have hcan := @can_attempt_call_iff Unit
  rcases does_iff.mp h with ⟨rfl, rfl⟩ | ⟨_, rfl, failed⟩ | ⟨rfl, cut⟩
  · refine ⟨_, ?_, (hcan .createDirAll id).mpr ⟨_, .works, rfl⟩⟩
    exact (slotsOf_made hs s.depth).trans (if_pos (makePath_present s))
  · cases failed with
    | makeDir e left =>
      obtain ⟨t, ht, hpartial⟩ := complete_left_makeDir hs left
      exact ⟨t, ht, (hcan .createDirAll id).mpr ⟨some (.error e), .fails (.fault (.createDirAll _ _ _ hpartial)), rfl⟩⟩
  · obtain ⟨t, ht, hpartial⟩ := complete_left_makeDir hs cut
    exact ⟨t, ht, (hcan .createDirAll id).mpr ⟨none, .stops hpartial, rfl⟩⟩

theorem complete_harden {r : Option (Except DigTlsError Unit)} (h : (slots os hidden).Does .harden (slotsOf s) r b) :
    ∃ t, slotsOf t = b ∧ Can (veiled hidden) (hardenDirPermissions os).attempt s
      (r.map .ok : Option (Except DigTlsError (Except DigTlsError Unit))) t := by
  have hcan := @can_attempt_call_iff Unit
  rcases does_iff.mp h with ⟨rfl, rfl⟩ | ⟨_, rfl, failed⟩ | ⟨rfl, cut⟩
  · cases os with
    | windows => exact ⟨s, rfl, can_done_iff.mpr ⟨rfl, rfl⟩⟩
    | unix =>
      obtain ⟨hsame, hanswer⟩ := slotsOf_setDirPermissions (s := s) 0o700#12
      refine ⟨_, hsame, (hcan (.setDirPermissions 0o700#12) id).mpr ⟨_, .works, ?_⟩⟩
      exact congrArg (fun x => some (Except.ok x)) hanswer.symm
  · cases failed with
    | harden e left =>
      cases left with
      | harden _ hos =>
        subst hos
        exact ⟨s, rfl, (hcan (.setDirPermissions 0o700#12) id).mpr
          ⟨some (.error e), .fails (.fault (.setDirPermissions _ _ _)), rfl⟩⟩
  · cases cut with
    | harden _ hos =>
      subst hos
      exact ⟨s, rfl, (hcan (.setDirPermissions 0o700#12) id).mpr ⟨none, .stops (.unchanged _ _), rfl⟩⟩

theorem complete_implement {op : SlotOp} {r : Option op.Res} (hs : s.Tracked)
    (h : (slots os hidden).Does op (slotsOf s) r b) :
    ∃ t, slotsOf t = b ∧ Can (veiled hidden) (implement os op) s (r.map .ok) t := by
  cases op with
  | there f => exact complete_there h
  | text f => exact complete_text h
  | bytes f => exact complete_bytes h
  | put f contents => exact complete_put hs h
  | delete f => exact complete_delete h
  | makeDir => exact complete_makeDir hs h
  | harden => exact complete_harden h

theorem layered (os : Platform) (hidden : Set String) :
    Layered (slots os hidden) (veiled hidden) (implement os) Displays where
  sound := by
    rintro op s _ o t ⟨hs, rfl⟩ h
    obtain ⟨r, ho, hdoes⟩ := sound_implement hs h
    exact ⟨r, slotsOf t, ho, ⟨tracked_can hs h, rfl⟩, hdoes⟩
  complete := by
    rintro op s _ r b ⟨hs, rfl⟩ h
    obtain ⟨t, rfl, hcan⟩ := complete_implement hs h
    exact ⟨t, ⟨tracked_can hs hcan, rfl⟩, hcan⟩

def DirectoryStep (os : Platform) (hidden : Set String) (s : Volume String)
    (l : Call B × Option (Except DigTlsError Reply))
    (t : Volume String) : Prop := Can (veiled hidden) (l.1.program os) s l.2 t

def SlotsStep (os : Platform) (hidden : Set String) (a : Slots)
    (l : Call B × Option (Except DigTlsError Reply)) (b : Slots) : Prop :=
  Can (slots os hidden) l.1.onSlots a l.2 b

theorem DirectoryStep.onSlots {l : Call B × Option (Except DigTlsError Reply)} (hs : s.Tracked)
    (h : DirectoryStep os hidden s l t) : t.Tracked ∧ SlotsStep os hidden (slotsOf s) l (slotsOf t) := by
  rw [DirectoryStep, ← expand_onSlots os] at h
  obtain ⟨_, ⟨ht, rfl⟩, hcan⟩ := (layered os hidden).sound_program ⟨hs, rfl⟩ h
  exact ⟨ht, hcan⟩

theorem SlotsStep.inDirectory {l : Call B × Option (Except DigTlsError Reply)} (hs : s.Tracked)
    (h : SlotsStep os hidden (slotsOf s) l b) : ∃ t, Displays t b ∧ DirectoryStep os hidden s l t := by
  obtain ⟨t, ht, hcan⟩ := (layered os hidden).complete_program ⟨hs, rfl⟩ h
  rw [expand_onSlots os] at hcan
  exact ⟨t, ht, hcan⟩

theorem run_onSlots {ls : List (Volume String × Call B × Option (Except DigTlsError Reply))} (hs : s.Tracked)
    (hrun : History (DirectoryStep os hidden) s ls t) :
    ∃ ks, History (SlotsStep os hidden) (slotsOf s) ks (slotsOf t) ∧ ks.map Prod.snd = ls.map Prod.snd := by
  have hsim : ∀ (u : Volume String) (l : Call B × Option (Except DigTlsError Reply)) v a, Displays u a →
      DirectoryStep os hidden u l v → ∃ b, Displays v b ∧ SlotsStep os hidden a l b := by
    rintro u l v _ ⟨hu, rfl⟩ hstep
    exact ⟨slotsOf v, ⟨(hstep.onSlots hu).1, rfl⟩, (hstep.onSlots hu).2⟩
  obtain ⟨ks, _, ⟨_, rfl⟩, hks, hlabels⟩ := History.simulate hsim hrun ⟨hs, rfl⟩
  exact ⟨ks, hks, hlabels⟩

/-- Any number of calls on a directory, each with its answer or without one because it was cut short,
can go and end with these slot files exactly if they can on the slots. -/
theorem directory_runs_are_slot_runs (hs : s.Tracked) {b : Slots}
    {calls : List (Call B × Option (Except DigTlsError Reply))} :
    (∃ ls t, History (DirectoryStep os hidden) s ls t ∧ ls.map Prod.snd = calls ∧ slotsOf t = b) ↔
      ∃ ks, History (SlotsStep os hidden) (slotsOf s) ks b ∧ ks.map Prod.snd = calls := by
  constructor
  · rintro ⟨ls, t, hrun, rfl, rfl⟩
    exact run_onSlots hs hrun
  · rintro ⟨ks, hrun, rfl⟩
    have hsim : ∀ a (l : Call B × Option (Except DigTlsError Reply)) c (u : Volume String), Displays u a →
        SlotsStep os hidden a l c → ∃ v, Displays v c ∧ DirectoryStep os hidden u l v := by
      rintro _ l c u ⟨hu, rfl⟩ hstep
      exact hstep.inDirectory hu
    obtain ⟨ls, t, ht, hls, hlabels⟩ := History.simulate (R := fun a u => Displays u a) hsim hrun ⟨hs, rfl⟩
    exact ⟨ls, t, hls, hlabels, ht.2⟩

theorem falls_refl (op : SlotOp) (a : Slots) : Falls .unix op a a := by
  cases op with
  | there f => exact .there f a
  | text f => exact .text f a
  | bytes f => exact .bytes f a
  | put f contents => exact .kept f contents a
  | delete f => exact .delete f a
  | makeDir => exact .unmade a
  | harden => exact .harden a rfl

theorem can_bothThere_missed {c : SlotFile} (h : c.path ∈ hidden) (k : SlotFile) (a : Slots) :
    Can (slots os hidden) (SlotTask.bothThere c k) a (some (.ok false)) a :=
  can_call_iff.mpr (Or.inl ⟨false, a, .fails (.unseen h a), can_done_iff.mpr ⟨rfl, rfl⟩⟩)

/-- A first load, and then one that misses the certificate and is cut between its two files. -/
theorem directory_runs_are_slot_runs_missed : ∃ ls t,
    History (DirectoryStep (B := toyBackend) .unix {certFile}) emptyDir ls t ∧
    ls.map Prod.snd = [(.loadOrGenerate (toyMint 1 7), some (.ok (.node toyNodeOne))),
      (.loadOrGenerate (toyMint 2 8), none)] ∧
    t.contents certFile = some (asBytes "c\x02") ∧ t.contents keyFile = some (asBytes "k\x01") := by
  have hempty : slotsOf emptyDir = ⟨some fun _ => none⟩ := slotsOf_eq rfl fun f => emptyDir_vacant.contents _
  have hfirst := can_exec (M := slots .unix {certFile}) (Call.loadOrGenerate (toyMint 1 7)).onSlots (slotsOf emptyDir)
  have hanswer : (exec (slots .unix {certFile}) (Call.loadOrGenerate (toyMint 1 7)).onSlots ⟨some fun _ => none⟩).1 =
      .ok (.node toyNodeOne) := by decide +kernel
  rw [← hempty] at hanswer
  rw [hanswer] at hfirst
  have hstep : SlotsStep .unix {certFile} (slotsOf emptyDir)
      (.loadOrGenerate (toyMint 1 7), some (.ok (.node toyNodeOne))) _ := hfirst
  have hcut : (cutAfter (slots .unix {certFile}) 3 (.ofExcept (NodeCert.generateSigned toyBackend (toyMint 2 8)) >>=
      fun node => SlotTask.persistFresh node)
      (exec (slots .unix {certFile}) (Call.loadOrGenerate (toyMint 1 7)).onSlots ⟨some fun _ => none⟩).2).map
      (fun r => (r.2.contents .cert, r.2.contents .key)) =
        some (some (asBytes "c\x02"), some (asBytes "k\x01")) := by decide +kernel
  rw [← hempty] at hcut
  obtain ⟨⟨trace, b⟩, hb, hshown⟩ := Option.map_eq_some_iff.mp hcut
  rw [Prod.mk.injEq] at hshown
  have hmissed : certFile ∈ ({certFile} : Set String) := rfl
  have hload : Can (slots .unix {certFile}) (SlotTask.loadOrGenerate (toyMint 2 8)) _ none b :=
    (can_bothThere_missed hmissed .key _).bind ⟨trace, outcome_cutAfter falls_refl hb⟩
  have hsecond : SlotsStep .unix {certFile} _ (.loadOrGenerate (toyMint 2 8), none) b := hload.bind_cut
  obtain ⟨ls, t, hrun, hcalls, rfl⟩ := (directory_runs_are_slot_runs emptyDir_tracked).mpr
    ⟨_, (History.single hstep).snoc hsecond, rfl⟩
  exact ⟨ls, t, hrun, hcalls, (slotsOf_contents .cert).symm.trans hshown.1, (slotsOf_contents .key).symm.trans hshown.2⟩

theorem exec_attempt_call {op : Op String} {next : op.Res → Task α} {r : Except IoError α}
    (hrun : next (Volume.run op s).1 = orFail r) (ht : (Volume.run op s).2 = t) :
    exec (posix String) ((.call op next : Task α).attempt : Task (Except DigTlsError α)) s =
      (.ok (r.mapError .io), t) := by
  have hcall : exec (posix String) (.call op next) s = (r.mapError .io, t) := by
    change exec (posix String) (next (Volume.run op s).1) (Volume.run op s).2 = _
    rw [hrun, ht]
    cases r <;> rfl
  rw [exec_attempt, hcall]

theorem exec_implement (os : Platform) (op : SlotOp) (hs : s.Tracked) :
    ∃ t, exec (posix String) (implement os op) s = (.ok ((slots os hidden).run op (slotsOf s)).1, t) ∧
      slotsOf t = ((slots os hidden).run op (slotsOf s)).2 := by
  cases op with
  | there f =>
    refine ⟨s, ?_, rfl⟩
    change exec (posix String) (pathExists f.path) s = (.ok ((slotsOf s).contents f).isSome, s)
    rw [exec_pathExists, slotsOf_contents]
  | text f =>
    refine ⟨s, ?_, rfl⟩
    change exec (posix String) (readToString f.path).attempt s = (.ok (textOf ((slotsOf s).contents f)), s)
    rw [slotsOf_contents, ← readToString_textOf]
    exact exec_attempt_call rfl (run_readToString f.path s).1
  | bytes f =>
    refine ⟨s, ?_, rfl⟩
    change exec (posix String) (fsRead f.path).attempt s = (.ok (bytesOf ((slotsOf s).contents f)), s)
    rw [slotsOf_contents, ← (read_bytesOf f.path).2]
    exact exec_attempt_call rfl (read_bytesOf f.path).1
  | put f contents =>
    obtain ⟨t, hexec, ht⟩ := exec_put os f contents hs
    refine ⟨t, ?_, ht⟩
    change exec (posix String) (atomicWrite os f.path contents f.secret).attempt s = (.ok (slotsOf s).answer, t)
    rw [exec_attempt, hexec]
  | delete f =>
    rw [run_delete]
    exact ⟨_, exec_attempt_call rfl rfl, rfl⟩
  | makeDir =>
    refine ⟨_, ?_, (slotsOf_made hs s.depth).trans (if_pos (makePath_present s))⟩
    change exec (posix String) createDirAll.attempt s = (.ok ((Except.ok () : Except IoError Unit).mapError .io), _)
    exact exec_attempt_call rfl rfl
  | harden =>
    cases os with
    | windows => exact ⟨s, rfl, rfl⟩
    | unix =>
      obtain ⟨hsame, hanswer⟩ := slotsOf_setDirPermissions (s := s) 0o700#12
      refine ⟨_, ?_, hsame⟩
      change exec (posix String) (setDirPermissions 0o700#12).attempt s = (.ok (slotsOf s).answer, _)
      rw [← hanswer]
      exact exec_attempt_call rfl rfl

/-- A call that nothing interrupts answers as on the slots, and leaves what it leaves there. -/
theorem exec_undisturbed (os : Platform) (hidden : Set String) (c : Call B) (hs : s.Tracked) :
    ∃ t, exec (posix String) (c.program os) s = ((exec (slots os hidden) c.onSlots (slotsOf s)).1, t) ∧
      t.Tracked ∧ slotsOf t = (exec (slots os hidden) c.onSlots (slotsOf s)).2 := by
  have hops : ∀ (op : SlotOp) (u : Volume String) a, Displays u a →
      ∃ v, exec (posix String) (implement os op) u = (.ok ((slots os hidden).run op a).1, v) ∧
        Displays v ((slots os hidden).run op a).2 := by
    rintro op u _ ⟨hu, rfl⟩
    obtain ⟨v, hexec, hv⟩ := exec_implement os op hu
    refine ⟨v, hexec, ?_, hv⟩
    have hcan := can_exec (M := posix String) (implement os op) u
    rw [hexec] at hcan
    exact tracked_can hu (can_veiled ∅ hcan)
  obtain ⟨t, hexec, ht, hslots⟩ := exec_expand hops c.onSlots ⟨hs, rfl⟩
  rw [expand_onSlots] at hexec
  exact ⟨t, hexec, ht, hslots⟩

end DigTls
