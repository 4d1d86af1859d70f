import DigTls.Store.Idle
import DigTls.Store.Rotation

/-! # Two calls at once

The operations take no lock. Two calls side by side are serial as long as no rotation goes
through, no two first runs meet and no two retirements do: then at most one of them writes, and
the other one sees nothing of it, or waits for its last change.
-/
namespace DigTls
open EffectPrograms PosixVolume Volume
variable {B : Backend} {α β : Type} {I : Volume String → Prop} {s u : Volume String}

section Within
variable {known : List (String × Bool)}

theorem within_call {op : Op String} {next : op.Res → Task α} (hop : ∀ x ∈ known, ¬ op.Touches x.1)
    (hnext : ∀ r, (next r).Within (posix String) (Knows known)) :
    (Program.call op next).Within (posix String) (Knows known) :=
  fun _ hs => ⟨hs.run hop, hnext _⟩

theorem within_orFail (r : Except IoError α) : (orFail r).Within (posix String) I := by
  cases r <;> trivial

theorem within_pathExists (path : String) : (pathExists path).Within (posix String) (Knows known) :=
  within_call (fun _ _ => id) fun _ => trivial

/-- What a slot write does before its rename shows on the staging name only. -/
def prepare (dest : String) (contents : Bytes) (secret : Secret) : Task Unit := do
  stage .unix (tmpPath dest) contents secret
  let file ← openWrite (tmpPath dest)
  syncAll file

theorem atomicWrite_eq (dest : String) (contents : Bytes) (secret : Secret) :
    atomicWrite .unix dest contents secret = prepare dest contents secret >>= fun _ =>
      fsRename (tmpPath dest) dest >>= fun _ => syncDir := by
  simp [atomicWrite, prepare, atomicRename, fsyncDir, Program.bind_assoc']

theorem within_prepare {dest : String} (htmp : ∀ x ∈ known, tmpPath dest ≠ x.1) (contents : Bytes)
    (secret : Secret) : (prepare dest contents secret).Within (posix String) (Knows known) := by
  have hstage : (stage .unix (tmpPath dest) contents secret).Within (posix String) (Knows known) := by
    cases secret with
    | no =>
      refine Program.Within.bind (within_call htmp within_orFail) fun file => ?_
      exact within_call (fun _ _ => id) within_orFail
    | yes =>
      refine Program.Within.bind (within_call htmp within_orFail) fun file => ?_
      refine Program.Within.bind (within_call (fun _ _ => id) within_orFail) fun _ => ?_
      exact within_call (fun _ _ => id) within_orFail
  refine Program.Within.bind hstage fun _ => ?_
  refine Program.Within.bind (within_call (fun _ _ => id) within_orFail) fun file => ?_
  exact within_call (fun _ _ => id) within_orFail

theorem within_atomicWrite {dest : String} (htmp : ∀ x ∈ known, tmpPath dest ≠ x.1)
    (hdest : ∀ x ∈ known, dest ≠ x.1) (contents : Bytes) (secret : Secret) :
    (atomicWrite .unix dest contents secret).Within (posix String) (Knows known) := by
  rw [atomicWrite_eq]
  refine Program.Within.bind (within_prepare htmp contents secret) fun _ => ?_
  refine Program.Within.bind (within_call (fun x hx => not_or.mpr ⟨htmp x hx, hdest x hx⟩) within_orFail)
    fun _ => ?_
  exact within_call (fun _ _ => id) within_orFail

theorem within_loadSlot (slot : Slot) : (loadSlot B slot).Within (posix String) (Knows known) := by
  have hread : ∀ path, (readToString path).Within (posix String) (Knows known) :=
    fun path => within_call (fun _ _ => id) within_orFail
  refine Program.Within.bind (hread _) fun certPem => Program.Within.bind (hread _) fun keyPem => ?_
  cases NodeCert.fromPem B certPem keyPem <;> trivial

theorem within_bothExist (slot : Slot) : (bothExist slot).Within (posix String) (Knows known) := by
  refine Program.Within.bind (within_pathExists _) fun b => ?_
  cases b with
  | false => trivial
  | true => exact within_pathExists _

def currentNames : List String := [certFile, keyFile, tmpPath certFile, tmpPath keyFile]

theorem within_loadOrGenerate (hknown : ∀ x ∈ known, ∀ q ∈ currentNames, q ≠ x.1) (m : NodeCert.Minting B) :
    ((Call.loadOrGenerate m).program .unix).Within (posix String) (Knows known) := by
  refine Program.Within.bind (Program.Within.bind (within_bothExist _) fun b => ?_) fun _ => trivial
  cases b with
  | true => exact within_loadSlot _
  | false =>
    change (.ofExcept (NodeCert.generateSigned B m) >>= fun node => persistFresh .unix node).Within _ _
    cases NodeCert.generateSigned B m with
    | error e => trivial
    | ok x =>
      change (persistFresh .unix x).Within _ _
      refine Program.Within.bind (within_call (fun _ _ => id) within_orFail) fun _ => ?_
      refine Program.Within.bind (within_call (fun _ _ => id) within_orFail) fun _ => ?_
      refine Program.Within.bind (within_atomicWrite ?_ ?_ _ _) fun _ => ?_
      · exact fun y hy => hknown y hy _ (by decide)
      · exact fun y hy => hknown y hy _ (by decide)
      · refine Program.Within.bind (within_atomicWrite ?_ ?_ _ _) fun _ => trivial
        · exact fun y hy => hknown y hy _ (by decide)
        · exact fun y hy => hknown y hy _ (by decide)

end Within

def currentThere : List (String × Bool) := [(certFile, true), (keyFile, true)]

/-- An existence test at a gate: its answer decides, or will be the same once the gate is open. -/
theorem gated_pathExists {O : Volume String → Prop} {path : String} {f : Bool → Task α}
    {r : Except DigTlsError α}
    (h : ∀ s, I s → (f (s.contents path).isSome).result = some r ∨
      (∀ u, O u → (u.contents path).isSome = (s.contents path).isSome) ∧
        (f (s.contents path).isSome).Gated (posix String) I O r) :
    (pathExists path >>= f).Gated (posix String) I O r := by
  have hans : ∀ u, Volume.run (.pathExists path) u = ((u.contents path).isSome, u) :=
    fun u => Prod.ext contents_isSome.symm rfl
  intro s hs
  refine ⟨rfl, ?_⟩
  change (f (Volume.run (.pathExists path) s).1).result = some r ∨
    (∀ u, O u → Volume.run (.pathExists path) u = ((Volume.run (.pathExists path) s).1, u)) ∧
      (f (Volume.run (.pathExists path) s).1).Gated (posix String) I O r
  rw [hans s]
  rcases h s hs with hdecided | ⟨hopen, hnext⟩
  · exact Or.inl hdecided
  · refine Or.inr ⟨fun u hu => ?_, hnext⟩
    rw [hans u, hopen u hu]

/-- Until the key is there, a call that asks for the current pair is told that it is not. -/
theorem gated_missing {f : Bool → Task α} {r : Except DigTlsError α} (hf : (f false).result = some r) :
    (bothExist currentSlot >>= f).Gated (posix String) (Knows [(keyFile, false)]) (Knows currentThere) r := by
  rw [bothExist, Program.bind_assoc']
  refine gated_pathExists fun s hs => ?_
  cases hcert : (s.contents currentSlot.cert).isSome with
  | false => exact Or.inl hf
  | true =>
    refine Or.inr ⟨fun u hu => hu (certFile, true) (by simp [currentThere]), ?_⟩
    refine gated_pathExists fun v hv => Or.inl ?_
    have hkey : (v.contents currentSlot.key).isSome = false := hv (keyFile, false) (by simp)
    rw [hkey]
    exact hf

theorem gated_unretired {f : Bool → Task α} {g : Bool → Task α} {r : Except DigTlsError α}
    (hg : g true = (eitherExists prevSlot >>= f)) (hf : (f true).result = some r) :
    (bothExist currentSlot >>= g).Gated (posix String) (Knows ((certFilePrev, true) :: currentThere))
      (Knows currentThere) r := by
  rw [bothExist, Program.bind_assoc']
  have hseen : ∀ x ∈ currentThere, ∀ s, Knows ((certFilePrev, true) :: currentThere) s →
      ∀ u, Knows currentThere u → (u.contents x.1).isSome = (s.contents x.1).isSome := by
    intro x hx s hs u hu
    rw [hu x hx, hs x (List.mem_cons_of_mem _ hx)]
  refine gated_pathExists fun s hs => Or.inr ⟨hseen (certFile, true) (by simp [currentThere]) s hs, ?_⟩
  have hcert : (s.contents currentSlot.cert).isSome = true := hs (certFile, true) (by simp [currentThere])
  rw [hcert]
  refine gated_pathExists fun v hv => Or.inr ⟨hseen (keyFile, true) (by simp [currentThere]) v hv, ?_⟩
  have hkey : (v.contents currentSlot.key).isSome = true := hv (keyFile, true) (by simp [currentThere])
  rw [hkey, hg, eitherExists, Program.bind_assoc']
  refine gated_pathExists fun w hw => Or.inl ?_
  have hprev : (w.contents prevSlot.cert).isSome = true := hw (certFilePrev, true) (by simp)
  rw [hprev]
  exact hf

theorem opens_pathExists {P : Task α → Volume String → Prop} {path : String} {f : Bool → Task α}
    (hs : I s) (h : (f (s.contents path).isSome).Opens (posix String) I P s) :
    (pathExists path >>= f).Opens (posix String) I P s := by
  refine Or.inl ⟨hs, ?_⟩
  have hans : (Volume.run (.pathExists path) s).1 = (s.contents path).isSome := contents_isSome.symm
  change (f (Volume.run (.pathExists path) s).1).Opens (posix String) I P s
  rw [hans]
  exact h

/-- What is left of a call once the gate is open. -/
def Left (J : Volume String → Prop) (r : Except DigTlsError Reply) (p : Task Reply) (u : Volume String) : Prop :=
  Knows currentThere u ∧ J u ∧ Still J r p

theorem within_retireKey (h : ∀ u, I u → I (Volume.run (.removeFile keyFilePrev) u).2) :
    retireKey.Within (posix String) I := by
  have hread : ∀ u : Volume String, (Volume.run (.read keyFilePrev) u).2 = u := by
    intro u
    cases hc : u.contents keyFilePrev <;> simp [Volume.run, hc]
  refine Program.Within.bind (fun u hu => ⟨hu, trivial⟩) fun b => ?_
  cases b with
  | false => trivial
  | true =>
    refine Program.Within.bind (fun u hu => ⟨?_, within_orFail _⟩) fun _ => ?_
    · change I (Volume.run (.read keyFilePrev) u).2
      rw [hread]
      exact hu
    · exact fun u hu => ⟨h u hu, within_orFail _⟩

theorem within_retirePrevious (hkey : ∀ u, I u → I (Volume.run (.removeFile keyFilePrev) u).2)
    (hcert : ∀ u, I u → I (Volume.run (.removeFile certFilePrev) u).2) :
    ((Call.retirePrevious (B := B)).program .unix).Within (posix String) I := by
  refine Program.Within.bind (Program.Within.bind (within_retireKey hkey) fun _ => ?_) fun _ => trivial
  refine Program.Within.bind (fun u hu => ⟨hu, trivial⟩) fun b => ?_
  cases b with
  | false => trivial
  | true => exact fun u hu => ⟨hcert u hu, within_orFail _⟩

/-- The deletion of the certificate is the last step of a retirement. -/
theorem opens_retirePrevious (hs : Knows ((certFilePrev, true) :: currentThere) s) :
    ((Call.retirePrevious (B := B)).program .unix).Opens (posix String)
      (Knows ((certFilePrev, true) :: currentThere)) (Left (fun _ => True) (.ok .retired)) s := by
  rw [Call.program, retirePrevious, Program.bind_assoc']
  have hkeyPrev : ∀ x ∈ (certFilePrev, true) :: currentThere, keyFilePrev ≠ x.1 := by decide
  refine Program.Opens.bind (within_retireKey fun u hu => hu.run hkeyPrev) hs fun _ u _ hu => ?_
  rw [retireCert, Program.bind_assoc']
  apply opens_pathExists hu
  have hthere : (u.contents certFilePrev).isSome = true := hu (certFilePrev, true) (by simp)
  rw [hthere]
  obtain ⟨i, hi⟩ := Option.isSome_iff_exists.mp (contents_isSome ▸ hthere)
  right
  change Left _ _ (orFail (Volume.run (.removeFile certFilePrev) u).1 >>= _) (Volume.run (.removeFile certFilePrev) u).2
  have hcurrent : Knows currentThere u := fun x hx => hu x (List.mem_cons_of_mem _ hx)
  have hother : ∀ x ∈ currentThere, certFilePrev ≠ x.1 := by decide
  refine ⟨hcurrent.run hother, trivial, ?_⟩
  rw [run_removeFile hi]
  exact rfl

/-- The rename onto the key file opens the gate: after it only the directory is synced. -/
theorem opens_rename {x : NodeCert} (hs : Knows [(keyFile, false), (certFile, true)] s) :
    (fsRename (tmpPath keyFile) keyFile >>= fun _ => syncDir >>= fun _ => .done (Reply.node x)).Opens
      (posix String) (Knows [(keyFile, false), (certFile, true)])
      (Left (fun u => u.present = true) (.ok (.node x))) s := by
  have hcert : (s.contents certFile).isSome = true := hs (certFile, true) (by simp)
  cases hl : s.lookup (tmpPath keyFile) with
  | none =>
    have hrun : Volume.run (.rename (tmpPath keyFile) keyFile) s = (.error .notFound, s) := by
      simp [Volume.run, Volume.rename, hl]
    left
    change Knows _ (Volume.run (.rename (tmpPath keyFile) keyFile) s).2 ∧
      (orFail (Volume.run (.rename (tmpPath keyFile) keyFile) s).1 >>= _).Opens _ _ _
        (Volume.run (.rename (tmpPath keyFile) keyFile) s).2
    rw [hrun]
    exact ⟨hs, trivial⟩
  | some i =>
    obtain ⟨hp, _⟩ := lookup_eq_some_iff.mp hl
    have hrun : Volume.run (.rename (tmpPath keyFile) keyFile) s =
        (.ok (), (s.relink keyFile (some i)).relink (tmpPath keyFile) none) := by
      have hne : tmpPath keyFile ≠ keyFile := by decide
      simp [Volume.run, Volume.rename, hl, hne]
    right
    change Left _ _ (orFail (Volume.run (.rename (tmpPath keyFile) keyFile) s).1 >>= _)
      (Volume.run (.rename (tmpPath keyFile) keyFile) s).2
    rw [hrun]
    refine ⟨?_, hp, fun u hu => ?_⟩
    · intro y hy
      have hkey : keyFile ≠ tmpPath keyFile := by decide
      simp only [currentThere, List.mem_cons, List.not_mem_nil, or_false] at hy
      rcases hy with rfl | rfl
      · have hne : certFile ≠ tmpPath keyFile ∧ certFile ≠ keyFile := by decide
        rw [contents_relink_of_ne hne.1, contents_relink_of_ne hne.2]
        exact hcert
      · rw [contents_relink_of_ne hkey, contents_isSome, lookup_relink_self hp]
        rfl
    · have hsync : Volume.run .syncDir u = (.ok (), { u with past := fun _ => [] }) := by
        simp [Volume.run, hu]
      change visible (Volume.run .syncDir u).2 = visible u ∧
        Still _ _ (orFail (Volume.run .syncDir u).1 >>= fun _ => .done (Reply.node x))
      rw [hsync]
      exact ⟨rfl, rfl⟩

def persistCert (x : NodeCert) : Task Unit := do
  createDirAll
  hardenDirPermissions .unix
  writeCert .unix certFile x

theorem persistFresh_split (x : NodeCert) : persistFresh .unix x =
    persistCert x >>= fun _ => writeKey .unix keyFile x >>= fun _ => .done x := by
  simp [persistFresh, persistCert, Program.bind_assoc']

theorem exec_persistCert {x : NodeCert} (hs : s.Wf) {a : Unit}
    (h : exec (posix String) (persistCert x) s = (.ok a, u)) : (u.contents certFile).isSome = true := by
  have hresults : Results (persistCert x) s fun _ o t =>
      (∃ b, o = some (.ok b)) → (t.contents certFile).isSome = true := by
    refine (quiet_createDirAll hs).bind_results (fun _ t ht _ => ?_) fun o t _ _ _ hno ⟨b, hb⟩ =>
      absurd hb (hno b)
    refine (quiet_setDirPermissions ht _).bind_results (fun _ v hv _ => ?_) fun o v _ _ _ hno ⟨b, hb⟩ =>
      absurd hb (hno b)
    apply (results_atomicWrite hv (by decide) _ _).mono
    rintro ds o w ⟨_, _, _, ⟨_, _, hno⟩ | ⟨_, hdest, _⟩⟩ ⟨b, hb⟩
    · exact absurd hb (hno b)
    · rw [hdest]
      rfl
  obtain ⟨_, hdone⟩ := hresults.uninterrupted
  rw [h] at hdone
  exact hdone ⟨a, rfl⟩

/-- The key is the last file of a first run to be put in place. -/
theorem opens_firstRun {m : NodeCert.Minting B} {x : NodeCert} (hs : s.Wf) (hkey : s.contents keyFile = none)
    (hmint : NodeCert.generateSigned B m = .ok x) :
    ((Call.loadOrGenerate m).program .unix).Opens (posix String) (Knows [(keyFile, false)])
      (Left (fun u => u.present = true) (.ok (.node x))) s := by
  have hmissing : Knows [(keyFile, false)] s := by
    intro y hy
    rw [List.mem_singleton.mp hy, hkey]
    rfl
  rw [Call.program, loadOrGenerate, Program.bind_assoc']
  refine Program.Opens.bind (within_bothExist _) hmissing fun b u hexec _ => ?_
  obtain ⟨_, _, hstate, hanswer⟩ := Ensures.uninterrupted (@reads_bothExist s currentSlot)
  rw [hexec] at hstate hanswer
  have hu : u = s := hstate
  have hb : b = false := by
    rw [hanswer b rfl, show currentSlot.key = keyFile from rfl, hkey]
    simp
  subst hu hb
  change ((.ofExcept (NodeCert.generateSigned B m) >>= fun node => persistFresh .unix node) >>= _).Opens _ _ _ _
  rw [hmint]
  change (persistFresh .unix x >>= _).Opens _ _ _ _
  have hcertNames : ∀ y ∈ [(keyFile, false)], tmpPath certFile ≠ y.1 ∧ certFile ≠ y.1 := by decide
  have hkeyNames : ∀ y ∈ [(keyFile, false), (certFile, true)], tmpPath keyFile ≠ y.1 := by decide
  have hwithin : (persistCert x).Within (posix String) (Knows [(keyFile, false)]) := by
    refine Program.Within.bind (within_call (fun _ _ => id) within_orFail) fun _ => ?_
    refine Program.Within.bind (within_call (fun _ _ => id) within_orFail) fun _ => ?_
    exact within_atomicWrite (fun y hy => (hcertNames y hy).1) (fun y hy => (hcertNames y hy).2) _ _
  rw [persistFresh_split, Program.bind_assoc']
  refine Program.Opens.bind hwithin hmissing fun _ v hcert hv => ?_
  have hboth : Knows [(keyFile, false), (certFile, true)] v := by
    intro y hy
    rcases List.mem_cons.mp hy with rfl | hy
    · exact hv _ (by simp)
    · rw [List.mem_singleton.mp hy]
      exact exec_persistCert hs hcert
  rw [writeKey, atomicWrite_eq]
  simp only [Program.bind_assoc', Program.done_bind]
  refine Program.Opens.mono ?_ fun w (hw : Knows [(keyFile, false), (certFile, true)] w) y hy =>
    hw y (List.mem_cons.mpr (Or.inl (List.mem_singleton.mp hy)))
  exact Program.Opens.bind (within_prepare hkeyNames _ _) hboth fun _ w _ hw => opens_rename hw

/-- The answers of two calls, and the slots they leave, are those of the calls one by one. -/
def Serialised (c c' : Call B) (s : Volume String) (r r' : Except DigTlsError Reply) (t : Volume String) :
    Prop :=
  Serial (posix String) slotContents (c.program .unix) (c'.program .unix) s r r' t

/-- Two calls that get in each other's way: a rotation that goes through beside any call, two
first runs, or two retirements of a previous slot. -/
def Conflict (s : Volume String) (c c' : Call B) : Prop :=
  c.Rotates s ∨ c'.Rotates s ∨ c.Writes s ∧ c'.Writes s

theorem slotContents_visible {s t : Volume String} (h : visible s = visible t) :
    slotContents s = slotContents t := by
  rw [slotContents, slotContents, contents_visible h]

theorem serial_firstRun {m : NodeCert.Minting B} {c' : Call B} (hwf : s.Wf) (hs : Orderly s)
    (hfirst : FirstRun m s) (hidle : ¬ c'.Writes s) (hc' : c' ≠ .loadPrevious) {r r' : Except DigTlsError Reply}
    (hrun : Interleaved (posix String) ((Call.loadOrGenerate m).program .unix) (c'.program .unix) s r r' u) :
    Serial (posix String) visible ((Call.loadOrGenerate m).program .unix) (c'.program .unix) s r r' u := by
  obtain ⟨hkey, x, hmint⟩ := hfirst
  have hopens := opens_firstRun hwf hkey hmint
  have hmissing : Knows [(keyFile, false)] s := by
    intro y hy
    rw [List.mem_singleton.mp hy, hkey]
    rfl
  have gate : ∀ {b}, (c'.program .unix).Gated (posix String) (Knows [(keyFile, false)]) (Knows currentThere) b →
      Serial (posix String) visible ((Call.loadOrGenerate m).program .unix) (c'.program .unix) s r r' u :=
    fun hgated => serial_of_gated faithful_visible (shown_knows _) shown_present
      (fun op _ hp => run_present op hp) hrun hopens hgated hmissing
  cases c' with
  | loadOrGenerate m' =>
    cases hx : NodeCert.generateSigned B m' with
    | ok y => exact absurd ⟨hkey, y, hx⟩ hidle
    | error e =>
      apply gate (b := .error e)
      rw [Call.program, loadOrGenerate, Program.bind_assoc']
      apply gated_missing
      change ((.ofExcept (NodeCert.generateSigned B m') >>= fun node => persistFresh .unix node) >>= _).result = _
      rw [hx]
      exact rfl
  | rotate m' =>
    apply gate (b := .error noCurrent)
    rw [Call.program, rotate, Program.bind_assoc']
    exact gated_missing rfl
  | loadPrevious => exact absurd rfl hc'
  | retirePrevious =>
    have hnoCert : s.contents certFilePrev = none := by
      by_contra hcert
      exact hs.behind hcert hkey
    have hnoKey := hs.retired hnoCert
    have hfree : Knows [(certFilePrev, false), (keyFilePrev, false)] s := by
      intro y hy
      rcases List.mem_cons.mp hy with rfl | hy
      · rw [hnoCert]
        rfl
      · rw [List.mem_singleton.mp hy, hnoKey]
        rfl
    have hnames : ∀ y ∈ [(certFilePrev, false), (keyFilePrev, false)], ∀ q ∈ currentNames, q ≠ y.1 := by
      decide
    refine serial_of_steady faithful_visible (shown_knows _) hrun (within_loadOrGenerate hnames m)
      (still_retirePrevious ?_ ?_) hfree
    · exact fun v hv => hv (certFilePrev, false) (by simp)
    · exact fun v hv => hv (keyFilePrev, false) (by simp)

def AlikeCurrent (s u : Volume String) : Prop :=
  u.contents certFile = s.contents certFile ∧ u.contents keyFile = s.contents keyFile

theorem shown_alikeCurrent (s : Volume String) : Shown visible (AlikeCurrent s) := by
  intro v w h hv
  rw [AlikeCurrent, contents_visible h]
  exact hv

theorem alikeCurrent_removeFile {path : String} (hcert : certFile ≠ path) (hkey : keyFile ≠ path)
    (v : Volume String) (hv : AlikeCurrent s v) : AlikeCurrent s (Volume.run (.removeFile path) v).2 := by
  simp only [Volume.run, Volume.removeFile]
  split
  · exact hv
  · rw [AlikeCurrent, contents_relink_of_ne hcert, contents_relink_of_ne hkey]
    exact hv

theorem serial_retirement {c' : Call B} (hs : Orderly s) (hthere : s.contents certFilePrev ≠ none)
    (hidle : ¬ c'.Writes s) (hc' : c' ≠ .loadPrevious) {r r' : Except DigTlsError Reply}
    (hrun : Interleaved (posix String) ((Call.retirePrevious (B := B)).program .unix) (c'.program .unix) s r r' u) :
    Serial (posix String) visible ((Call.retirePrevious (B := B)).program .unix) (c'.program .unix) s r r' u := by
  have hkey := hs.behind hthere
  have hcert := hs.current hkey
  cases c' with
  | loadOrGenerate m =>
    have hboth : ((s.contents certFile).isSome && (s.contents keyFile).isSome) = true := by
      simp [Option.isSome_iff_ne_none.mpr hcert, Option.isSome_iff_ne_none.mpr hkey]
    have hslot : ∃ r, Still (AlikeCurrent s) r (loadOrGenerate .unix m) :=
      still_loadOrGenerate (fun v hv => hv.1) (fun v hv => hv.2) hboth m
    have hload : ∃ b, Still (AlikeCurrent s) b ((Call.loadOrGenerate m).program .unix) :=
      still_bind hslot fun node _ => ⟨.ok (.node node), rfl⟩
    obtain ⟨b, hb⟩ := hload
    have hwithin : ((Call.retirePrevious (B := B)).program .unix).Within (posix String) (AlikeCurrent s) :=
      within_retirePrevious (alikeCurrent_removeFile (by decide) (by decide))
        (alikeCurrent_removeFile (by decide) (by decide))
    exact serial_of_steady faithful_visible (shown_alikeCurrent s) hrun hwithin hb ⟨rfl, rfl⟩
  | rotate m =>
    have hknown : Knows ((certFilePrev, true) :: currentThere) s := by
      intro y hy
      simp only [currentThere, List.mem_cons, List.not_mem_nil, or_false] at hy
      rcases hy with rfl | rfl | rfl
      · exact Option.isSome_iff_ne_none.mpr hthere
      · exact Option.isSome_iff_ne_none.mpr hcert
      · exact Option.isSome_iff_ne_none.mpr hkey
    refine serial_of_gated faithful_visible (shown_knows _) (fun _ _ _ h => h) (fun _ _ h => h) hrun
      (opens_retirePrevious hknown) (b := .error unretired) ?_ hknown
    rw [Call.program, rotate, Program.bind_assoc']
    apply gated_unretired (Program.bind_assoc' _ _ _)
    exact rfl
  | loadPrevious => exact absurd rfl hc'
  | retirePrevious => exact absurd hthere hidle

theorem Call.writes_cases {c : Call B} (h : c.Writes s) (hrotate : ¬ c.Rotates s) :
    (∃ m, c = .loadOrGenerate m ∧ FirstRun m s) ∨ c = .retirePrevious ∧ s.contents certFilePrev ≠ none := by
  cases c with
  | loadOrGenerate m => exact Or.inl ⟨m, rfl, h⟩
  | rotate m => exact absurd h hrotate
  | loadPrevious => exact h.elim
  | retirePrevious => exact Or.inr ⟨rfl, h⟩

/-- One call that would change slot files beside one that would not. -/
theorem serial_of_writes {c c' : Call B} (hwf : s.Wf) (hs : Orderly s) (hc : c.Writes s)
    (hrotate : ¬ c.Rotates s) (hidle : ¬ c'.Writes s) (hc' : c' ≠ .loadPrevious)
    {r r' : Except DigTlsError Reply}
    (hrun : Interleaved (posix String) (c.program .unix) (c'.program .unix) s r r' u) :
    Serial (posix String) visible (c.program .unix) (c'.program .unix) s r r' u := by
  rcases Call.writes_cases hc hrotate with ⟨m, rfl, hfirst⟩ | ⟨rfl, hthere⟩
  · exact serial_firstRun hwf hs hfirst hidle hc' hrun
  · exact serial_retirement hs hthere hidle hc' hrun

/-- Two calls of load, rotate or retire that do not conflict are serial, whatever the order of
their file-system steps. -/
theorem calls_serialised {s₀ s t : Volume String} {ls : List (Volume String × Event B)} (hvacant : Vacant s₀)
    (hreach : Run B noLoss s₀ ls s) {c c' : Call B} (hc : c ≠ .loadPrevious) (hc' : c' ≠ .loadPrevious)
    (hfree : ¬ Conflict s c c') {r r' : Except DigTlsError Reply}
    (hrun : Interleaved (posix String) (c.program .unix) (c'.program .unix) s r r' t) :
    Serialised c c' s r r' t := by
  have hwf := run_wf hvacant.wf hreach
  have hs := run_orderly hvacant hreach
  simp only [Conflict, not_or, not_and] at hfree
  obtain ⟨hrotate, hrotate', hboth⟩ := hfree
  have hserial : Serial (posix String) visible (c.program .unix) (c'.program .unix) s r r' t := by
    by_cases hw : c.Writes s
    · exact serial_of_writes hwf hs hw hrotate (hboth hw) hc' hrun
    · by_cases hw' : c'.Writes s
      · exact (serial_of_writes hwf hs hw' hrotate' hw hc hrun.swap).swap
      · exact serial_of_idle hs hw hw' hrun
  exact hserial.coarsen fun _ _ => slotContents_visible

instance (c c' : Call B) (r r' : Except DigTlsError Reply) (t : Volume String) :
    Decidable (Serialised c c' s r r' t) :=
  inferInstanceAs (Decidable (Serial _ _ _ _ _ _ _ _))

/-- In a state that uninterrupted calls reach, the two calls have a run that is not serial. -/
def Disordered (c c' : Call toyBackend) (s : Volume String) : Prop :=
  (∃ ls, Run toyBackend noLoss emptyDir ls s) ∧ ∃ r r' t,
    Interleaved (posix String) (c.program .unix) (c'.program .unix) s r r' t ∧ ¬ Serialised c c' s r r' t

theorem disordered_of_turns {c c' : Call toyBackend} {s : Volume String} (turns : List Bool)
    (hreach : ∃ ls, Run toyBackend noLoss emptyDir ls s)
    (h : (interleave (posix String) turns (c.program .unix) (c'.program .unix) s).any
      fun x => ! decide (Serialised c c' s x.1 x.2.1 x.2.2)) : Disordered c c' s := by
  obtain ⟨x, hx, hnot⟩ := (Option.any_eq_true _ _).mp h
  exact ⟨hreach, x.1, x.2.1, x.2.2, interleaved_of_turns hx, by simpa using hnot⟩

/-- First runs that swap files, a load in the middle of a rotation, two rotations past their
checks, a retirement in the middle of a rotation, and two retirements of one key. -/
theorem conflicting_calls_not_serialised :
    Disordered (.loadOrGenerate (toyMint 1 7)) (.loadOrGenerate (toyMint 2 8)) emptyDir ∧
    Disordered (.rotate (toyMint 2 8)) (.loadOrGenerate (toyMint 3 9)) settledDir ∧
    Disordered (.rotate (toyMint 2 8)) (.rotate (toyMint 3 9)) settledDir ∧
    Disordered (.rotate (toyMint 2 8)) .retirePrevious settledDir ∧
    Disordered .retirePrevious .retirePrevious (complete (.rotate (toyMint 2 8)) settledDir).2 := by
  have hempty : ∃ ls, Run toyBackend noLoss emptyDir ls emptyDir := ⟨[], .start _⟩
  obtain ⟨_, hload⟩ := @run_settled noLoss
  have hsettled : ∃ ls, Run toyBackend noLoss emptyDir ls settledDir := ⟨_, hload⟩
  obtain ⟨_, hrotate⟩ := @step_complete noLoss (.rotate (toyMint 2 8)) settledDir
  have hrotated : ∃ ls, Run toyBackend noLoss emptyDir ls (complete (.rotate (toyMint 2 8)) settledDir).2 :=
    ⟨_, hload.append (.single hrotate)⟩
  refine ⟨?_, ?_, ?_, ?_, ?_⟩
  · exact disordered_of_turns (false :: .replicate 9 true ++ .replicate 40 false ++ .replicate 40 true) hempty
      (by decide +kernel)
  · exact disordered_of_turns (.replicate 26 true ++ .replicate 40 false ++ .replicate 40 true) hsettled
      (by decide +kernel)
  · exact disordered_of_turns (.replicate 6 true ++ .replicate 40 false ++ .replicate 40 true) hsettled
      (by decide +kernel)
  · exact disordered_of_turns (false :: .replicate 40 true ++ .replicate 40 false) hsettled (by decide +kernel)
  · exact disordered_of_turns (true :: .replicate 40 false ++ .replicate 40 true) hrotated (by decide +kernel)

/-- A first run whose last rename has been made, beside a rotation that starts then. -/
theorem calls_serialised_first_run : ∃ r r' t,
    Interleaved (posix String) ((Call.loadOrGenerate (toyMint 1 7)).program .unix)
      ((Call.rotate (toyMint 2 8)).program .unix) emptyDir r r' t ∧
    Serialised (.loadOrGenerate (toyMint 1 7)) (.rotate (toyMint 2 8)) emptyDir r r' t := by
  have hturns : (interleave (posix String) (.replicate 15 true ++ .replicate 40 false ++ .replicate 1 true)
      ((Call.loadOrGenerate (toyMint 1 7)).program .unix) ((Call.rotate (toyMint 2 8)).program .unix)
      emptyDir).isSome := by decide +kernel
  obtain ⟨x, hx⟩ := Option.isSome_iff_exists.mp hturns
  have hrun := interleaved_of_turns hx
  have hfree : ¬ Conflict emptyDir (.loadOrGenerate (toyMint 1 7)) (.rotate (toyMint 2 8)) := by
    have hnot : ¬ Rotatable (toyMint 2 8) emptyDir := by
      rintro ⟨⟨p, hp⟩, _⟩
      have hcert := hp.cert
      rw [emptyDir_vacant.contents] at hcert
      cases hcert
    rintro (h | h | ⟨_, h⟩)
    · exact h
    · exact hnot h
    · exact hnot h
  exact ⟨_, _, _, hrun, calls_serialised emptyDir_vacant (.start _) (by simp) (by simp) hfree hrun⟩

end DigTls
