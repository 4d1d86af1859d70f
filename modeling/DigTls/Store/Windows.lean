import DigTls.Posix.Permissions
import DigTls.Posix.Visible
import DigTls.Store.Acknowledged

/-! # Slot writes on Windows

There a rename that fails over an existing target is tried again after removing the target, so for
a moment the slot file is gone. What a replacement leaves is told by the calls of it that took
effect: the slot file is the old one or the new one unless the removal was the last of them.
-/
namespace DigTls
open EffectPrograms PosixVolume Volume
variable {B : Backend} {α β : Type} {s t u : Volume String} {source target : String} {file : ℕ}
  {trace trace' : List (Op String)} {ps qs : List String} {p : Task α} {f : α → Task β}

/-- The removal of the target, if it took effect, was followed by the second rename. -/
def Finished (source target : String) (trace : List (Op String)) : Prop :=
  .removeFile target ∈ trace → .rename source target ∈ trace

/-- What a replacement leaves, by the calls that took effect. -/
inductive Replacement (source target : String) (file : ℕ) (s : Volume String) :
    List (Op String) → Volume String → Prop
  | untried : Replacement source target file s [] s
  | tested : Replacement source target file s [.pathExists target] s
  | renamed : Replacement source target file s [.rename source target] (s.moved source target file)
  | removed : Replacement source target file s [.pathExists target, .removeFile target] (s.relink target none)
  | replaced : Replacement source target file s
      [.pathExists target, .removeFile target, .rename source target]
      ((s.relink target none).moved source target file)

theorem ensures_atomicRename (hl : s.lookup source = some file) (hne : source ≠ target) :
    Ensures (blind String) (atomicRename .windows source target) s fun trace _ t =>
      Replacement source target file s trace t := by
  refine Ensures.call_of_run (rename_eq hne hl) ?_ ?_ ?_
  · exact Ensures.done .renamed
  · rintro _ _ ⟨⟨⟩⟩
    refine Ensures.call ?_ ?_ ?_
    · change Ensures _ (if (s.lookup target).isSome = true then _ else _) s _
      cases htarget : s.lookup target with
      | none => exact Ensures.raise .tested
      | some i =>
        refine Ensures.call_of_run (run_removeFile htarget) ?_ ?_ ?_
        · have hl' : (s.relink target none).lookup source = some file := by rw [lookup_relink_of_ne hne, hl]
          refine Ensures.call_of_run (rename_eq hne hl') ?_ ?_ ?_
          · exact Ensures.done .replaced
          · rintro _ _ ⟨⟨⟩⟩
            exact Ensures.raise .removed
          · rintro _ ⟨⟩
            exact .removed
        · rintro _ _ ⟨⟨⟩⟩
          exact Ensures.raise .tested
        · rintro _ ⟨⟩
          exact .tested
    · intro r u hf
      cases hf with
      | fault hf => cases hf
      | unseen => exact Ensures.raise .untried
    · rintro _ ⟨⟩
      exact .untried
  · rintro _ ⟨⟩
    exact .untried

/-- The target has its old contents, or those of the source, or none because the removal was the
last call that took effect. -/
theorem Replacement.shows (h : Replacement source target file s trace t) (hl : s.lookup source = some file)
    (hne : source ≠ target) :
    (t.contents target = s.contents target ∧ Finished source target trace) ∨
    (t.contents target = s.contents source ∧ Finished source target trace) ∨
    (t.contents target = none ∧ ¬ Finished source target trace) := by
  have hdata : s.contents source = some (s.inode file).data := contents_of_lookup hl
  cases h with
  | untried => exact Or.inl ⟨rfl, by simp [Finished]⟩
  | tested => exact Or.inl ⟨rfl, by simp [Finished]⟩
  | renamed =>
    refine Or.inr (Or.inl ⟨?_, by simp [Finished]⟩)
    rw [moved_contents_target hne hl, hdata]
  | removed =>
    refine Or.inr (Or.inr ⟨?_, by simp [Finished]⟩)
    rw [contents_eq_none_iff]
    simp [lookup]
  | replaced =>
    have hl' : (s.relink target none).lookup source = some file := by rw [lookup_relink_of_ne hne, hl]
    refine Or.inr (Or.inl ⟨?_, by simp [Finished]⟩)
    rw [moved_contents_target hne hl', hdata]
    rfl

theorem Replacement.elsewhere {q : String} (h : Replacement source target file s trace t) (hqs : q ≠ source)
    (hqt : q ≠ target) : t.contents q = s.contents q := by
  cases h with
  | untried => rfl
  | tested => rfl
  | renamed => exact moved_contents_of_ne hqs hqt
  | removed => exact contents_relink_of_ne hqt none
  | replaced => exact (moved_contents_of_ne hqs hqt).trans (contents_relink_of_ne hqt none)

theorem Replacement.calls {q : String} (h : Replacement source target file s trace t) (hq : q ≠ target)
    (source' : String) : .removeFile q ∉ trace ∧ .rename source' q ∉ trace := by
  cases h <;> simp [hq]

def Unreplaced (d : String) (trace : List (Op String)) : Prop :=
  .removeFile d ∉ trace ∧ .rename (tmpPath d) d ∉ trace

/-- A slot file that was there is there, but for a replacement that was not finished; and no slot
file but those of `ps` has been touched. -/
structure Accounts (ps : List String) (s : Volume String) (trace : List (Op String)) (t : Volume String) :
    Prop where
  kept : ∀ d ∈ slotFiles, (s.contents d).isSome → ((t.contents d).isSome ↔ Finished (tmpPath d) d trace)
  others : ∀ d ∈ slotFiles, d ∉ ps → t.contents d = s.contents d ∧ Unreplaced d trace

theorem Unreplaced.finished {d : String} (h : Unreplaced d trace) : Finished (tmpPath d) d trace :=
  fun hremove => absurd hremove h.1

theorem Unreplaced.append {d : String} (h : Unreplaced d trace) (h' : Unreplaced d trace') :
    Unreplaced d (trace ++ trace') := by
  simp only [Unreplaced, List.mem_append, not_or] at h h' ⊢
  exact ⟨⟨h.1, h'.1⟩, ⟨h.2, h'.2⟩⟩

theorem finished_append_left {d : String} (h : Unreplaced d trace) :
    Finished (tmpPath d) d (trace ++ trace') ↔ Finished (tmpPath d) d trace' := by
  simp [Finished, h.1, h.2]

theorem finished_append_right {d : String} (h : Unreplaced d trace') :
    Finished (tmpPath d) d (trace ++ trace') ↔ Finished (tmpPath d) d trace := by
  simp [Finished, h.1, h.2]

theorem Accounts.quiet (hsame : ∀ d ∈ slotFiles, t.contents d = s.contents d)
    (hcalls : ∀ d ∈ slotFiles, Unreplaced d trace) : Accounts ps s trace t := by
  refine ⟨fun d hd hthere => ?_, fun d hd _ => ⟨hsame d hd, hcalls d hd⟩⟩
  rw [hsame d hd]
  exact iff_of_true hthere (hcalls d hd).finished

theorem Accounts.mono (h : Accounts ps s trace t) (hsub : ∀ d ∈ ps, d ∈ qs) : Accounts qs s trace t :=
  ⟨h.kept, fun d hd hnot => h.others d hd fun hp => hnot (hsub d hp)⟩

theorem Accounts.append (h : Accounts ps s trace t) (h' : Accounts qs t trace' u) (hdisj : ∀ d ∈ ps, d ∉ qs) :
    Accounts (ps ++ qs) s (trace ++ trace') u := by
  constructor
  · intro d hd hthere
    by_cases hq : d ∈ qs
    · obtain ⟨hsame, hquiet⟩ := h.others d hd fun hp => hdisj d hp hq
      rw [finished_append_left hquiet]
      exact h'.kept d hd (by rwa [hsame])
    · obtain ⟨hsame, hquiet⟩ := h'.others d hd hq
      rw [finished_append_right hquiet, hsame]
      exact h.kept d hd hthere
  · intro d hd hnot
    rw [List.mem_append, not_or] at hnot
    obtain ⟨hsame, hquiet⟩ := h.others d hd hnot.1
    obtain ⟨hsame', hquiet'⟩ := h'.others d hd hnot.2
    exact ⟨hsame'.trans hsame, hquiet.append hquiet'⟩

/-- Whatever happens to the program, the slot files are accounted for. -/
def Replaces (ps : List String) (p : Task α) : Prop :=
  ∀ s, s.Tracked → Ensures (blind String) p s fun trace _ t => Accounts ps s trace t

theorem Accounts.start (s : Volume String) : Accounts ps s [] s :=
  .quiet (fun _ _ => rfl) fun _ _ => ⟨List.not_mem_nil, List.not_mem_nil⟩

theorem Replaces.done (a : α) : Replaces ps (.done a : Task α) := fun s _ => Ensures.done (.start s)
theorem Replaces.raise (e : DigTlsError) : Replaces ps (.raise e : Task α) := fun s _ => Ensures.raise (.start s)

theorem Replaces.bind (h : Replaces ps p) (next : ∀ a, Replaces qs (f a)) (hdisj : ∀ d ∈ ps, d ∉ qs) :
    Replaces (ps ++ qs) (p >>= f) := by
  intro s hs
  refine Ensures.bind (((h s hs).and (ensures_tracked hs)).mono ?_)
  rintro trace o t ⟨hacc, ht⟩
  have hstop : Accounts (ps ++ qs) s trace t := hacc.mono fun d hd => List.mem_append_left _ hd
  rcases o with _ | e | a
  · exact hstop
  · exact hstop
  · exact (next a t ht).mono fun trace' _ u hu => hacc.append hu hdisj

theorem replaces_looks {A : α → Prop} (hp : p.Forall Op.Reads A) : Replaces [] p := by
  intro s hs trace o t ho
  have hkeeps : Keeps (blind String) (fun u => u = s) p A :=
    keeps_of_leads (fun op u v hop hl hu => (leads_reads hop hl).trans hu) hp
  have hsame : t = s := (hkeeps s rfl trace o t ho).1
  have hcalls := (ho.forall hp).1
  refine .quiet (fun d _ => by rw [hsame]) fun d _ => ⟨fun hmem => hcalls _ hmem, fun hmem => hcalls _ hmem⟩

theorem Replacement.accounts {dest : String} (hdest : dest ∈ slotFiles)
    (h : Replacement (tmpPath dest) dest file s trace t) (hl : s.lookup (tmpPath dest) = some file) :
    Accounts [dest] s trace t := by
  have hothers : ∀ d ∈ slotFiles, d ≠ dest → t.contents d = s.contents d ∧ Unreplaced d trace :=
    fun d hd hne => ⟨h.elsewhere (tmpPath_not_slot dest hdest d hd) hne, h.calls hne (tmpPath d)⟩
  refine ⟨fun d hd hthere => ?_, fun d hd hnot => hothers d hd (by simpa using hnot)⟩
  by_cases hne : d = dest
  · subst hne
    have hsource : (s.contents (tmpPath d)).isSome := by simp [contents_of_lookup hl]
    rcases h.shows hl (tmpPath_ne d) with ⟨hc, hfin⟩ | ⟨hc, hfin⟩ | ⟨hc, hfin⟩
    · exact iff_of_true (hc ▸ hthere) hfin
    · exact iff_of_true (hc ▸ hsource) hfin
    · exact iff_of_false (by simp [hc]) hfin
  · obtain ⟨hsame, hquiet⟩ := hothers d hd hne
    exact iff_of_true (hsame ▸ hthere) hquiet.finished

theorem replaces_atomicWrite {dest : String} (hdest : dest ∈ slotFiles) (contents : Bytes) (secret : Secret) :
    Replaces [dest] (atomicWrite .windows dest contents secret) := by
  intro s hs
  rw [atomicWrite_prepared]
  refine Ensures.bind (((prepares_prepared hs contents secret).and (ensures_tracked hs)).mono ?_)
  rintro trace o u ⟨⟨hops, hb, hready⟩, hu⟩
  have hstaged : Accounts [] s trace u :=
    .quiet (fun d hd => hb.contents hs.toWf (tmpPath_not_slot dest hdest d hd))
      fun d _ => ⟨fun hmem => hops _ hmem, fun hmem => hops _ hmem⟩
  rcases o with _ | e | _
  · exact hstaged.mono (by simp)
  · exact hstaged.mono (by simp)
  · obtain ⟨file, hl, _, _⟩ := hready () rfl
    refine Ensures.bind ((ensures_atomicRename hl (tmpPath_ne dest)).mono ?_)
    rintro trace' o' t hrep
    have hall : Accounts [dest] s (trace ++ trace') t := hstaged.append (hrep.accounts hdest hl) (by simp)
    rcases o' with _ | e | _
    · exact hall
    · exact hall
    · exact Ensures.done (by simpa using hall)

theorem Replaces.mono (h : Replaces ps p) (hsub : ∀ d ∈ ps, d ∈ qs) : Replaces qs p :=
  fun s hs => (h s hs).mono fun _ _ _ hacc => hacc.mono hsub

theorem replaces_createDirAll : Replaces [] createDirAll := by
  intro s hs
  have hmade : ∀ k, Accounts [] s [] (s.makePath k) := fun k =>
    .quiet (fun d _ => (makePath_spec hs.toWf k).2 d) fun _ _ => ⟨List.not_mem_nil, List.not_mem_nil⟩
  have hpart : ∀ u, Partial .createDirAll s u → Accounts [] s [] u := by
    rintro u (_ | _ | _)
    · exact .start s
    · exact hmade _
  refine Ensures.call ?_ ?_ hpart
  · refine Ensures.done (.quiet (fun d _ => (makePath_spec hs.toWf s.depth).2 d) fun d _ => ?_)
    simp [Unreplaced]
  · intro r u hf
    have hleft := hf.left
    cases hf with
    | fault hf =>
      cases hf
      exact Ensures.raise (hpart u hleft)

theorem replaces_persistFresh (x : NodeCert) : Replaces [certFile, keyFile] (persistFresh .windows x) := by
  change Replaces ([] ++ ([certFile] ++ ([keyFile] ++ []))) _
  refine replaces_createDirAll.bind (fun _ => ?_) (by simp)
  refine (replaces_atomicWrite (by decide) _ _).bind (fun _ => ?_) (by decide)
  exact (replaces_atomicWrite (by decide) _ _).bind (fun _ => Replaces.done x) (by simp)

theorem replaces_persistRotation (p x : NodeCert) : Replaces slotFiles (persistRotation .windows p x) := by
  have hrow : Replaces ([certFilePrev] ++ ([keyFilePrev] ++ ([certFile] ++ ([keyFile] ++ []))))
      (persistRotation .windows p x) := by
    refine (replaces_atomicWrite (by decide) _ _).bind (fun _ => ?_) (by decide)
    refine (replaces_atomicWrite (by decide) _ _).bind (fun _ => ?_) (by decide)
    refine (replaces_atomicWrite (by decide) _ _).bind (fun _ => ?_) (by decide)
    exact (replaces_atomicWrite (by decide) _ _).bind (fun _ => Replaces.done _) (by simp)
  exact hrow.mono (by decide)

theorem replaces_loadOrGenerate (m : NodeCert.Minting B) : Replaces slotFiles (loadOrGenerate .windows m) := by
  change Replaces ([] ++ slotFiles) _
  refine (replaces_looks (bothExist_forall (fun _ => trivial) currentSlot)).bind (fun b => ?_) (by simp)
  cases b with
  | true => exact (replaces_looks (loadSlot_forall (fun _ => trivial) currentSlot)).mono (by simp)
  | false =>
    change Replaces slotFiles (.ofExcept (NodeCert.generateSigned B m) >>= fun x => persistFresh .windows x)
    cases NodeCert.generateSigned B m with
    | error e => exact Replaces.raise e
    | ok x => exact (replaces_persistFresh x).mono (by decide)

theorem replaces_rotate (m : NodeCert.Minting B) : Replaces slotFiles (rotate .windows m) := by
  change Replaces ([] ++ ([] ++ ([] ++ slotFiles))) _
  refine (replaces_looks (bothExist_forall (fun _ => trivial) currentSlot)).bind (fun b => ?_) (by simp)
  cases b with
  | false => exact Replaces.raise _
  | true =>
    refine (replaces_looks (eitherExists_forall (fun _ => trivial) prevSlot)).bind (fun b => ?_) (by simp)
    cases b with
    | true => exact Replaces.raise _
    | false =>
      refine (replaces_looks (loadSlot_forall (fun _ => trivial) currentSlot)).bind (fun p => ?_) (by simp)
      change Replaces slotFiles (.ofExcept (NodeCert.generateSigned B m) >>= fun x => persistRotation .windows p x)
      cases NodeCert.generateSigned B m with
      | error e => exact Replaces.raise e
      | ok x => exact replaces_persistRotation p x

/-- The call is not meant to delete the file. -/
def Call.Keeps (d : String) : Call B → Prop
  | .retirePrevious => d ∉ [keyFilePrev, certFilePrev]
  | _ => True

theorem keeps_current {d : String} (hd : d ∈ [certFile, keyFile]) (c : Call B) : c.Keeps d := by
  cases c with
  | retirePrevious =>
    change d ∉ [keyFilePrev, certFilePrev]
    rcases List.mem_pair.mp hd with rfl | rfl
    · decide
    · decide
  | loadOrGenerate | rotate | loadPrevious => trivial

/-- A call, with those of its file-system calls that took effect. -/
def WindowsStep (s : Volume String) (l : Call B × List (Op String)) (t : Volume String) : Prop :=
  ∃ o, Outcome (blind String) (l.1.program .windows) s l.2 o t

/-- The calls of a retirement, seen from another file. -/
def Op.LooksOrRemoves (d : String) (op : Op String) : Prop :=
  op.Reads ∨ ∃ path, op = .removeFile path ∧ path ≠ d

theorem lookOrRemove_kept {d : String} {A : α → Prop} {o : Option (Except DigTlsError α)}
    (hp : p.Forall (Op.LooksOrRemoves d) A) (h : Outcome (blind String) p s trace o t)
    (hthere : (s.contents d).isSome) : (t.contents d).isSome ∧ Unreplaced d trace := by
  have hkeeps : Keeps (blind String) (fun u => (u.contents d).isSome) p A := by
    refine keeps_of_leads (fun op u v hop hl hu => ?_) hp
    rcases hop with hop | ⟨path, rfl, hne⟩
    · rwa [leads_reads hop hl]
    · rcases leads_cases hl with rfl | hpart
      · have hsame : ((Volume.run (.removeFile path) u).2.lookup d).isSome = (u.lookup d).isSome :=
          run_lookup_isSome hne
        rw [contents_isSome, hsame, ← contents_isSome]
        exact hu
      · rwa [hpart.eq_of_whole trivial]
  have hcalls := (h.forall hp).1
  refine ⟨(hkeeps s hthere trace o t h).1, fun hmem => ?_, fun hmem => ?_⟩
  · rcases hcalls _ hmem with hop | ⟨path, heq, hne⟩
    · exact hop
    · cases heq
      exact hne rfl
  · rcases hcalls _ hmem with hop | ⟨path, heq, _⟩
    · exact hop
    · cases heq

/-- A slot file that was there before a call is there after it, exactly if a replacement that has
removed it was finished. -/
theorem windowsStep_kept {d : String} {l : Call B × List (Op String)} (hs : s.Tracked) (hd : d ∈ slotFiles)
    (hkeeps : l.1.Keeps d) (hthere : (s.contents d).isSome) (h : WindowsStep s l t) :
    (t.contents d).isSome ↔ Finished (tmpPath d) d l.2 := by
  obtain ⟨c, trace⟩ := l
  obtain ⟨o, ho⟩ := h
  have hreplaces : ∀ {α : Type} {p : Task α} {f : α → Reply}, Replaces slotFiles p →
      c.program .windows = (p >>= fun a => .done (f a)) →
      ((t.contents d).isSome ↔ Finished (tmpPath d) d trace) := by
    intro α p f hp hprogram
    have hall : Replaces (slotFiles ++ []) (p >>= fun a => .done (f a)) :=
      hp.bind (fun a => Replaces.done (f a)) (by simp)
    change Outcome (blind String) (c.program .windows) s trace o t at ho
    rw [hprogram] at ho
    exact (hall s hs trace o t ho).kept d hd hthere
  cases c with
  | loadOrGenerate m => exact hreplaces (replaces_loadOrGenerate m) rfl
  | rotate m => exact hreplaces (replaces_rotate m) rfl
  | loadPrevious =>
    refine hreplaces ((replaces_looks (loadPrevious_forall (B := B) ?_ ?_)).mono (by simp)) rfl
    · exact fun _ => trivial
    · exact fun _ => trivial
  | retirePrevious =>
    have hp : retirePrevious.Forall (Op.LooksOrRemoves d) fun _ => True := by
      refine retirePrevious_forall (fun _ => Or.inl trivial) (fun _ => Or.inl trivial) fun path hpath => ?_
      refine Or.inr ⟨path, rfl, ?_⟩
      rintro rfl
      exact hkeeps hpath
    have hall : ((Call.retirePrevious (B := B)).program .windows).Forall (Op.LooksOrRemoves d) fun _ => True :=
      hp.bind fun _ _ => trivial
    obtain ⟨hkept, hquiet⟩ := lookOrRemove_kept hall ho hthere
    exact iff_of_true hkept hquiet.finished

/-- A replacement of one file by another that exists leaves the old contents or the new ones exactly if
it does not stop between its removal and its second rename. In every run on Windows a slot file that
was there is there in every state reached, exactly if no call has stopped so; and where the current
pair was there and no call has, a later load reads it and mints nothing. -/
theorem windows_replace_safe_iff (B : Backend) :
    (∀ (s t : Volume String) (source target : String) (old new : Bytes) (trace : List (Op String))
      (o : Option (Except DigTlsError Unit)), source ≠ target → s.contents source = some new →
      s.contents target = some old → Outcome (blind String) (atomicRename .windows source target) s trace o t →
      ((t.contents target = some old ∨ t.contents target = some new) ↔ Finished source target trace)) ∧
    ∀ (s t : Volume String) (ls : List (Volume String × Call B × List (Op String))), s.Tracked →
      History WindowsStep s ls t →
      (∀ d ∈ slotFiles, (s.contents d).isSome → (∀ x ∈ ls, x.2.1.Keeps d) →
        (((∀ x ∈ ls, (x.1.contents d).isSome) ∧ (t.contents d).isSome) ↔
          ∀ x ∈ ls, Finished (tmpPath d) d x.2.2)) ∧
      ((∀ d ∈ [certFile, keyFile], (s.contents d).isSome ∧ ∀ x ∈ ls, Finished (tmpPath d) d x.2.2) →
        ∀ m : NodeCert.Minting B, Reads t (loadOrGenerate .windows m) (Holds B t currentSlot)) := by
  constructor
  · intro s t source target old new trace o hne hnew hold ho
    obtain ⟨file, hl⟩ : ∃ file, s.lookup source = some file := by
      rw [← Option.isSome_iff_exists, ← contents_isSome, hnew]
      rfl
    rcases (ensures_atomicRename hl hne trace o t ho).shows hl hne with ⟨hc, hfin⟩ | ⟨hc, hfin⟩ | ⟨hc, hfin⟩
    · exact iff_of_true (Or.inl (hc.trans hold)) hfin
    · exact iff_of_true (Or.inr (hc.trans hnew)) hfin
    · exact iff_of_false (by simp [hc]) hfin
  · intro s t ls hs hrun
    have hslot : ∀ d ∈ slotFiles, (s.contents d).isSome → (∀ x ∈ ls, x.2.1.Keeps d) →
        (((∀ x ∈ ls, (x.1.contents d).isSome) ∧ (t.contents d).isSome) ↔
          ∀ x ∈ ls, Finished (tmpPath d) d x.2.2) := by
      intro d hd hthere hkeeps
      have hkept := hrun.restrict (D := fun _ l => l.1.Keeps d) hkeeps
      refine hkept.everywhere_iff (J := Tracked) (P := fun u => (u.contents d).isSome)
        (C := fun _ l => Finished (tmpPath d) d l.2) hs hthere ?_ ?_
      · rintro u l v hu ⟨⟨o, ho⟩, _⟩
        exact tracked_veiled hu ho
      · exact fun u l v hu hthere' ⟨hstep, hl⟩ => windowsStep_kept hu hd hl hthere' hstep
    refine ⟨hslot, fun hcurrent m => ?_⟩
    have hthere : ∀ d ∈ [certFile, keyFile], (t.contents d).isSome := by
      intro d hd
      obtain ⟨hstart, hfin⟩ := hcurrent d hd
      have hslotFile : d ∈ slotFiles := by
        rcases List.mem_pair.mp hd with rfl | rfl
        · decide
        · decide
      exact ((hslot d hslotFile hstart fun x _ => keeps_current hd x.2.1).mpr hfin).2
    exact reads_loadOrGenerate .windows m (hthere certFile (by simp)) (hthere keyFile (by simp))

def windowsRotation (script : List Bool) : Option (List (Op String) × Volume String) :=
  followScript (blind String) failing script (Call.program .windows (.rotate (toyMint 2 8))) settledDir

theorem settledDir_tracked : settledDir.Tracked := by
  obtain ⟨_, hload⟩ := @step_complete PowerLoss (.loadOrGenerate (toyMint 1 7)) emptyDir
  exact run_powerLoss_tracked emptyDir_tracked (.single hload)

theorem windowsStep_rotation {script : List Bool} (h : windowsRotation script = some (trace, t)) :
    WindowsStep settledDir (Call.rotate (toyMint 2 8), trace) t :=
  ⟨none, outcome_followScript Partial.unchanged veiledFault_failing h⟩

/-- The first rename onto the current certificate fails, the removal and the second rename work, and
the rotation is cut there. -/
theorem windows_replace_safe_rotation : ∃ trace t,
    windowsRotation (List.replicate 20 true ++ [false, true, true, true]) = some (trace, t) ∧
    .removeFile certFile ∈ trace ∧ (t.contents certFile).isSome = true := by
  have hstate : (windowsRotation (List.replicate 20 true ++ [false, true, true, true])).map (fun r =>
      (decide (.removeFile certFile ∈ r.1), decide (.rename (tmpPath certFile) certFile ∈ r.1))) =
        some (true, true) := by decide +kernel
  obtain ⟨⟨trace, t⟩, hrun, hcalls⟩ := Option.map_eq_some_iff.mp hstate
  simp only [Prod.mk.injEq, decide_eq_true_eq] at hcalls
  obtain ⟨hremoved, hrenamed⟩ := hcalls
  have hthere : (settledDir.contents certFile).isSome = true := by decide +kernel
  obtain ⟨hslots, _⟩ := (windows_replace_safe_iff toyBackend).2 _ _ _ settledDir_tracked
    (.single (windowsStep_rotation hrun))
  have hkept := (hslots certFile (by decide) hthere (by simp [Call.Keeps])).mpr (by simp [Finished, hrenamed])
  exact ⟨trace, t, hrun, hremoved, hkept.2⟩

/-- When the second rename does not come about either, the certificate is gone, and a later load
answers with a third identity. -/
theorem windows_replace_loses_certificate : ∃ trace t third,
    WindowsStep settledDir (Call.rotate (toyMint 2 8), trace) t ∧
    (settledDir.contents certFile).isSome = true ∧ t.contents certFile = none ∧
    (exec (posix String) (loadOrGenerate .windows (toyMint 3 9)) t).1 = .ok third ∧
    third.peerId ≠ toyNodeOne.peerId ∧ third.peerId ≠ toyNodeTwo.peerId := by
  have hstate : (windowsRotation (List.replicate 20 true ++ [false, true, true])).map (fun r =>
      (r.2.contents certFile, (exec (posix String) (loadOrGenerate .windows (toyMint 3 9)) r.2).1)) =
        some (none, NodeCert.generateSigned toyBackend (toyMint 3 9)) := by decide +kernel
  obtain ⟨⟨trace, t⟩, hrun, hleft⟩ := Option.map_eq_some_iff.mp hstate
  obtain ⟨hgone, hload⟩ := Prod.mk.inj hleft
  have hminted : NodeCert.generateSigned toyBackend (toyMint 3 9) =
      .ok ⟨"c\x03", "k\x03", [3], [3], [3], ⟨List.Vector.replicate 32 3⟩⟩ := by decide +kernel
  refine ⟨trace, t, _, windowsStep_rotation hrun, by decide +kernel, hgone, hload.trans hminted, ?_, ?_⟩
  · decide
  · decide

end DigTls
