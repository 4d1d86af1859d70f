import DigTls.Posix.Frame
import DigTls.Store.Directory

/-! # What the operations leave behind, wherever they are cut

A call may be cut at any file-system step, by a crash or by an error. Reading leaves the
volume as it is, staging shows on one temporary name only, and a slot write has either put
the whole new file in place or left the old one. A call of several slot writes therefore
ends with some first part of them done.
-/
namespace DigTls
open EffectPrograms PosixVolume

/-- Whatever happens to `p` from `s`: the files put in place, the answer, the state left. -/
def Results {α : Type} (p : Task α) (s : Volume String)
    (Q : List String → Option (Except DigTlsError α) → Volume String → Prop) : Prop :=
  Ensures (posix String) p s fun trace => Q (renamed trace)

def IoOnly {α : Type} (o : Option (Except DigTlsError α)) : Prop :=
  ∀ e, o = some (.error e) → ∃ i, e = .io i

section Rules
variable {α β : Type} {p : Task α} {f : α → Task β} {s t : Volume String} {path tmp : String}

theorem Results.mono {Q R : List String → Option (Except DigTlsError α) → Volume String → Prop}
    (h : Results p s Q) (hqr : ∀ ds o t, Q ds o t → R ds o t) : Results p s R :=
  Ensures.mono h fun _ o t => hqr _ o t

theorem Results.and {Q R : List String → Option (Except DigTlsError α) → Volume String → Prop}
    (hq : Results p s Q) (hr : Results p s R) : Results p s fun ds o t => Q ds o t ∧ R ds o t :=
  Ensures.and hq hr

theorem Results.bind {Q : List String → Option (Except DigTlsError β) → Volume String → Prop}
    (h : Results p s fun ds o t => match o with
      | some (.ok a) => Results (f a) t fun ds' => Q (ds ++ ds')
      | some (.error e) => Q ds (some (.error e)) t
      | none => Q ds none t) : Results (p >>= f) s Q := by
  refine Ensures.bind (Ensures.mono h ?_)
  intro trace o t ho
  rcases o with _ | _ | a
  · exact ho
  · exact ho
  · exact Ensures.mono ho fun trace' o' t' hq => by simpa [renamed_append] using hq

theorem Results.done {a : α} {Q : List String → Option (Except DigTlsError α) → Volume String → Prop}
    (h : Q [] (some (.ok a)) s) : Results (.done a) s Q :=
  Ensures.done h

theorem Results.map {g : α → β} {Q : List String → Option (Except DigTlsError β) → Volume String → Prop}
    (h : Results p s fun ds o t => Q ds (o.map (Except.map g)) t) :
    Results (p >>= fun a => .done (g a)) s Q := by
  refine Results.bind (h.mono ?_)
  intro ds o t hq
  rcases o with _ | e | a
  · exact hq
  · exact hq
  · apply Results.done
    rw [List.append_nil]
    exact hq

theorem map_eq_ok {o : Option (Except DigTlsError α)} {g : α → β} {b : β} :
    o.map (Except.map g) = some (.ok b) ↔ ∃ a, o = some (.ok a) ∧ g a = b := by
  rcases o with _ | e | a <;> simp [Except.map]

theorem IoOnly.map {o : Option (Except DigTlsError α)} (g : α → β) (h : IoOnly o) :
    IoOnly (o.map (Except.map g)) := by
  rcases o with _ | e | a
  · simp [IoOnly]
  · obtain ⟨i, rfl⟩ := h e rfl
    simp [IoOnly, Except.map]
  · simp [IoOnly, Except.map]

/-- The end of a file-system call: its answer, good or bad, is passed on. -/
theorem results_orFail {r : Except IoError α}
    {Q : List String → Option (Except DigTlsError α) → Volume String → Prop}
    (good : ∀ a, r = .ok a → Q [] (some (.ok a)) t)
    (bad : ∀ e, r = .error e → Q [] (some (.error (.io e))) t) : Results (orFail r) t Q := by
  cases r with
  | ok a => exact Ensures.done (good a rfl)
  | error e => exact Ensures.raise (bad e rfl)

/-- The volume is only read, and a good answer satisfies `P`. -/
def Reads (s : Volume String) (p : Task α) (P : α → Prop) : Prop :=
  Results p s fun ds o t => ds = [] ∧ t = s ∧ ∀ a, o = some (.ok a) → P a

theorem Reads.bind {P : α → Prop} {Q : List String → Option (Except DigTlsError β) → Volume String → Prop}
    (h : Reads s p P) (next : ∀ a, P a → Results (f a) s Q) (failed : ∀ e, Q [] (some (.error e)) s)
    (cut : Q [] none s) : Results (p >>= f) s Q := by
  refine Results.bind (h.mono ?_)
  rintro ds o t ⟨rfl, rfl, hP⟩
  rcases o with _ | e | a
  · exact cut
  · exact failed e
  · exact (next a (hP a rfl)).mono fun _ _ _ hq => hq

theorem Reads.bind_reads {P : α → Prop} {P' : β → Prop} (h : Reads s p P)
    (next : ∀ a, P a → Reads s (f a) P') : Reads s (p >>= f) P' :=
  Reads.bind h next (fun _ => ⟨rfl, rfl, by simp⟩) ⟨rfl, rfl, by simp⟩

theorem Reads.done {a : α} {P : α → Prop} (h : P a) : Reads s (.done a) P :=
  Ensures.done ⟨rfl, rfl, by rintro _ ⟨⟩; exact h⟩

theorem Reads.raise {e : DigTlsError} {P : α → Prop} : Reads s (.raise e : Task α) P :=
  Ensures.raise ⟨rfl, rfl, by simp⟩

theorem Reads.ofExcept {r : Except DigTlsError α} {P : α → Prop} (h : ∀ a, r = .ok a → P a) :
    Reads s (.ofExcept r) P := by
  cases r with
  | ok a => exact Reads.done (h a rfl)
  | error e => exact Reads.raise

theorem Reads.call {op : Op String} {next : op.Res → Task α} {P : α → Prop}
    (hkeep : (Volume.run op s).2 = s) (hname : renamed [op] = [])
    (hfault : ∀ r u, Volume.Fault op s r u → u = s) (htorn : ∀ t, Volume.Partial op s t → t = s)
    (works : Reads s (next (Volume.run op s).1) P)
    (fails : ∀ r u, Volume.Fault op s r u → Reads s (next r) P) : Reads s (.call op next) P := by
  apply Ensures.call
  · change Ensures _ (next (Volume.run op s).1) (Volume.run op s).2 _
    rw [hkeep]
    refine Ensures.mono works ?_
    rintro trace o t ⟨hds, ht, hP⟩
    have hcons : renamed (op :: trace) = renamed [op] ++ renamed trace := renamed_append [op] trace
    exact ⟨by rw [hcons, hname, hds]; rfl, ht, hP⟩
  · intro r u hf
    have hu := hfault r u hf
    subst hu
    exact fails r _ hf
  · intro t ht
    exact ⟨rfl, htorn t ht, by simp⟩

theorem reads_pathExists : Reads s (pathExists path) fun b => b = (s.contents path).isSome := by
  refine Reads.call rfl rfl (by rintro _ _ ⟨⟩) (by rintro _ ⟨⟩; rfl) ?_ (by rintro _ _ ⟨⟩)
  exact Reads.done Volume.contents_isSome.symm

theorem fromUtf8_eq_some {bytes : Bytes} {text : String} (h : fromUtf8 bytes = some text) :
    bytes = asBytes text := by
  unfold fromUtf8 String.fromUTF8? at h
  split at h
  · cases h
    simp [asBytes, String.fromUTF8]
  · cases h

theorem run_readToString (path : String) (s : Volume String) :
    (Volume.run (.readToString path) s).2 = s ∧
      ∀ text, (Volume.run (.readToString path) s).1 = .ok text → s.contents path = some (asBytes text) := by
  cases hc : s.contents path with
  | none => simp [Volume.run, hc]
  | some bytes =>
    cases ht : fromUtf8 bytes with
    | none => simp [Volume.run, hc, ht]
    | some text => simp [Volume.run, hc, fromUtf8_eq_some ht]

theorem reads_orFail {r : Except IoError α} {P : α → Prop} (h : ∀ a, r = .ok a → P a) :
    Reads s (orFail r) P :=
  results_orFail (fun a ha => ⟨rfl, rfl, by rintro _ ⟨⟩; exact h a ha⟩) fun _ _ => ⟨rfl, rfl, by simp⟩

theorem reads_readToString :
    Reads s (readToString path) fun text => s.contents path = some (asBytes text) := by
  obtain ⟨hkeep, htext⟩ := run_readToString path s
  refine Reads.call hkeep rfl (by rintro _ _ ⟨⟩; rfl) (by rintro _ ⟨⟩; rfl) (reads_orFail htext) ?_
  rintro _ _ ⟨⟩
  exact Reads.raise

theorem reads_fsRead : Reads s (fsRead path) fun _ => True := by
  refine Reads.call ?_ rfl (by rintro _ _ ⟨⟩; rfl) (by rintro _ ⟨⟩; rfl)
    (reads_orFail fun _ _ => trivial) ?_
  · cases hc : s.contents path <;> simp [Volume.run, hc]
  · rintro _ _ ⟨⟩
    exact Reads.raise

theorem reads_bothExist {slot : Slot} : Reads s (bothExist slot) fun b =>
    b = ((s.contents slot.cert).isSome && (s.contents slot.key).isSome) := by
  apply reads_pathExists.bind_reads
  rintro b rfl
  cases hc : (s.contents slot.cert).isSome with
  | false => exact Reads.done rfl
  | true => exact reads_pathExists

theorem reads_eitherExists {slot : Slot} : Reads s (eitherExists slot) fun b =>
    b = ((s.contents slot.cert).isSome || (s.contents slot.key).isSome) := by
  apply reads_pathExists.bind_reads
  rintro b rfl
  cases hc : (s.contents slot.cert).isSome with
  | false => exact reads_pathExists
  | true => exact Reads.done rfl

/-- The slot holds the identity: both its texts, and they read back as it. -/
structure Holds (B : Backend) (s : Volume String) (slot : Slot) (node : NodeCert) : Prop where
  cert : s.contents slot.cert = some (asBytes node.certPem)
  key : s.contents slot.key = some (asBytes node.keyPem)
  genuine : NodeCert.fromPem B node.certPem node.keyPem = .ok node

variable {B : Backend}

theorem reads_loadSlot {slot : Slot} : Reads s (loadSlot B slot) (Holds B s slot) := by
  refine reads_readToString.bind_reads fun certPem hcert => ?_
  refine reads_readToString.bind_reads fun keyPem hkey => ?_
  refine Reads.ofExcept fun node hnode => ?_
  obtain ⟨rfl, rfl⟩ := NodeCert.fromPem_ok hnode
  exact ⟨hcert, hkey, hnode⟩

theorem Holds.unique {slot : Slot} {node node' : NodeCert} (h : Holds B s slot node)
    (h' : Holds B s slot node') : node = node' := by
  have hcert := asBytes_injective (Option.some.inj (h.cert.symm.trans h'.cert))
  have hkey := asBytes_injective (Option.some.inj (h.key.symm.trans h'.key))
  have hgen := h.genuine
  rw [hcert, hkey, h'.genuine] at hgen
  exact (Except.ok.inj hgen).symm

theorem Holds.congr {slot : Slot} {node : NodeCert} (h : Holds B s slot node)
    (hcert : t.contents slot.cert = s.contents slot.cert)
    (hkey : t.contents slot.key = s.contents slot.key) : Holds B t slot node :=
  ⟨hcert.trans h.cert, hkey.trans h.key, h.genuine⟩

theorem loadPrevious_reads : Reads s (loadPrevious B) fun r => match r with
    | some node => Holds B s prevSlot node
    | none => s.contents certFilePrev = none ∨ s.contents keyFilePrev = none := by
  refine reads_bothExist.bind_reads fun b hb => ?_
  cases b with
  | false =>
    apply Reads.done
    have hboth := hb.symm
    simp only [Bool.and_eq_false_iff, Option.isSome_eq_false_iff, Option.isNone_iff_eq_none] at hboth
    exact hboth
  | true => exact reads_loadSlot.bind_reads fun node hnode => Reads.done hnode

section Forall
variable {C : Op String → Prop}

theorem orFail_forall (r : Except IoError α) : (orFail r).Forall C fun _ => True := by
  cases r <;> trivial

theorem bothExist_forall (hexists : ∀ path, C (.pathExists path)) (slot : Slot) :
    (bothExist slot).Forall C fun _ => True := by
  refine Program.Forall.bind (A := fun _ => True) ⟨hexists _, fun _ => trivial⟩ fun b _ => ?_
  cases b with
  | false => trivial
  | true => exact ⟨hexists _, fun _ => trivial⟩

theorem eitherExists_forall (hexists : ∀ path, C (.pathExists path)) (slot : Slot) :
    (eitherExists slot).Forall C fun _ => True := by
  refine Program.Forall.bind (A := fun _ => True) ⟨hexists _, fun _ => trivial⟩ fun b _ => ?_
  cases b with
  | false => exact ⟨hexists _, fun _ => trivial⟩
  | true => trivial

theorem loadSlot_forall (hread : ∀ path, C (.readToString path)) (slot : Slot) :
    (loadSlot B slot).Forall C fun _ => True := by
  refine Program.Forall.bind (A := fun _ => True) ⟨hread _, orFail_forall⟩ fun certPem _ => ?_
  refine Program.Forall.bind (A := fun _ => True) ⟨hread _, orFail_forall⟩ fun keyPem _ => ?_
  exact Program.Forall.ofExcept fun _ _ => trivial

theorem loadPrevious_forall (hexists : ∀ path, C (.pathExists path)) (hread : ∀ path, C (.readToString path)) :
    (loadPrevious B).Forall C fun _ => True := by
  refine Program.Forall.bind (bothExist_forall hexists prevSlot) fun b _ => ?_
  cases b with
  | false => trivial
  | true => exact Program.Forall.bind (loadSlot_forall hread prevSlot) fun _ _ => trivial

theorem retirePrevious_forall (hexists : ∀ path, C (.pathExists path)) (hread : ∀ path, C (.read path))
    (hremove : ∀ path ∈ [keyFilePrev, certFilePrev], C (.removeFile path)) :
    retirePrevious.Forall C fun _ => True := by
  have hdelete : ∀ path ∈ [keyFilePrev, certFilePrev], (removeFile path).Forall C fun _ => True :=
    fun path hpath => ⟨hremove path hpath, orFail_forall⟩
  have hkey : retireKey.Forall C fun _ => True := by
    refine Program.Forall.bind (A := fun _ => True) ⟨hexists _, fun _ => trivial⟩ fun b _ => ?_
    cases b with
    | false => trivial
    | true =>
      refine Program.Forall.bind (A := fun _ => True) ⟨hread _, orFail_forall⟩ fun _ _ => ?_
      exact hdelete _ (by simp)
  refine hkey.bind fun _ _ => ?_
  refine Program.Forall.bind (A := fun _ => True) ⟨hexists _, fun _ => trivial⟩ fun b _ => ?_
  cases b with
  | false => trivial
  | true => exact hdelete _ (by simp)

end Forall

/-- The volume changes at `tmp` only, no file is put in place, and a good answer comes with `P`. -/
def Stages (tmp : String) (s : Volume String) (p : Task α) (P : α → Volume String → Prop) : Prop :=
  Results p s fun ds o t =>
    ds = [] ∧ Volume.Apart tmp s t ∧ IoOnly o ∧ ∀ a, o = some (.ok a) → P a t

theorem Stages.bind {P : α → Volume String → Prop} {P' : β → Volume String → Prop}
    (h : Stages tmp s p P) (next : ∀ a t, Volume.Apart tmp s t → P a t → Stages tmp t (f a) P') :
    Stages tmp s (p >>= f) P' := by
  refine Results.bind (h.mono ?_)
  rintro ds o t ⟨rfl, hap, hio, hP⟩
  rcases o with _ | e | a
  · exact ⟨rfl, hap, by simp [IoOnly], by simp⟩
  · obtain ⟨i, rfl⟩ := hio e rfl
    exact ⟨rfl, hap, by simp [IoOnly], by simp⟩
  · apply (next a t hap (hP a rfl)).mono
    rintro ds' o' u ⟨rfl, hap', hio', hP'⟩
    exact ⟨rfl, hap.trans hap', hio', hP'⟩

/-- A call made while staging, when what it leaves behind differs at `tmp` only. -/
theorem Stages.call {op : Op String} {next : op.Res → Task α} {P : α → Volume String → Prop}
    {r : Except IoError α} (hname : renamed [op] = []) (hnext : next (Volume.run op s).1 = orFail r)
    (hap : Volume.Apart tmp s (Volume.run op s).2) (hP : ∀ a, r = .ok a → P a (Volume.run op s).2)
    (fails : ∀ r' u, Volume.Fault op s r' u → ∃ e, next r' = .raise (.io e))
    (left : ∀ t, Volume.Partial op s t → Volume.Apart tmp s t) :
    Stages tmp s (.call op next) P := by
  apply Ensures.call
  · change Ensures _ (next (Volume.run op s).1) (Volume.run op s).2 _
    rw [hnext]
    cases r with
    | ok a =>
      exact Ensures.done ⟨hname, hap, by simp [IoOnly], by rintro _ ⟨⟩; exact hP a rfl⟩
    | error e => exact Ensures.raise ⟨hname, hap, by simp [IoOnly], by simp⟩
  · intro r' u hf
    obtain ⟨e, he⟩ := fails r' u hf
    rw [he]
    exact Ensures.raise ⟨rfl, left u hf.left, by simp [IoOnly], by simp⟩
  · intro t ht
    exact ⟨rfl, left t ht, by simp [IoOnly], by simp⟩

theorem stages_fsCreate (hs : s.Wf) (mode : Mode) : Stages tmp s (fsCreate tmp mode) fun file t =>
    t.lookup tmp = some file ∧ t.contents tmp = some [] := by
  obtain ⟨hap, hok⟩ := @Volume.create_spec _ s _ tmp _ hs mode (s.create tmp mode).1 rfl
  refine Stages.call rfl rfl hap hok ?_ ?_
  · rintro _ _ ⟨⟩
    exact ⟨_, rfl⟩
  · exact fun t => .of_whole hs trivial

theorem stages_writeAll (hs : s.Wf) {file : ℕ} (hfile : s.lookup tmp = some file)
    (hempty : s.contents tmp = some []) (data : Bytes) :
    Stages tmp s (writeAll file data) fun _ t => t.contents tmp = some data := by
  have hnil : (s.inode file).data = [] := by simpa [Volume.contents, hfile] using hempty
  have hap : ∀ bytes, Volume.Apart tmp s (s.overwrite file bytes) := fun bytes => .refile hs hfile _
  have hleft : ∀ t, Volume.Partial (.writeAll file data) s t → Volume.Apart tmp s t := by
    rintro t (_ | ⟨_, _, _, k⟩)
    · exact .refl hs
    · exact hap _
  refine Stages.call rfl rfl (hap data) ?_ ?_ hleft
  · intro _ _
    have hc : (s.overwrite file data).contents tmp =
        some (data ++ (s.inode file).data.drop data.length) := Volume.contents_refile_self hfile _
    rw [hnil, List.drop_nil, List.append_nil] at hc
    exact hc
  · rintro _ _ ⟨⟩
    exact ⟨_, rfl⟩

theorem stages_setPermissions (hs : s.Wf) (mode : Mode) :
    Stages tmp s (setPermissions tmp mode) fun _ t => t.contents tmp = s.contents tmp := by
  cases hl : s.lookup tmp with
  | none =>
    refine Stages.call (r := .error .notFound) rfl (by simp [Volume.run, hl]) ?_ (by simp) ?_ ?_
    · simpa [Volume.run, hl] using Volume.Apart.refl hs
    · rintro _ _ ⟨⟩
      exact ⟨_, rfl⟩
    · exact fun t => .of_whole hs trivial
  | some file =>
    refine Stages.call (r := .ok ()) rfl (by simp [Volume.run, hl]) ?_ ?_ ?_ ?_
    · simpa [Volume.run, hl] using Volume.Apart.refile hs hl { s.inode file with mode := mode }
    · intro _ _
      have hc : (s.refile file { s.inode file with mode := mode }).contents tmp =
          some (s.inode file).data := Volume.contents_refile_self hl _
      rw [Volume.contents_of_lookup hl]
      simpa [Volume.run, hl] using hc
    · rintro _ _ ⟨⟩
      exact ⟨_, rfl⟩
    · exact fun t => .of_whole hs trivial

theorem stages_openWrite (hs : s.Wf) :
    Stages tmp s (openWrite tmp) fun file t => t = s ∧ s.lookup tmp = some file := by
  cases hl : s.lookup tmp with
  | none =>
    refine Stages.call (r := .error .notFound) rfl (by simp [Volume.run, hl]) ?_ (by simp) ?_ ?_
    · simpa [Volume.run, hl] using Volume.Apart.refl hs
    · rintro _ _ ⟨⟩
      exact ⟨_, rfl⟩
    · exact fun t => .of_whole hs trivial
  | some file =>
    refine Stages.call (r := .ok file) rfl (by simp [Volume.run, hl]) ?_ ?_ ?_ ?_
    · simpa [Volume.run, hl] using Volume.Apart.refl hs
    · rintro _ ⟨⟩
      simp [Volume.run, hl]
    · rintro _ _ ⟨⟩
      exact ⟨_, rfl⟩
    · exact fun t => .of_whole hs trivial

theorem stages_syncAll (hs : s.Wf) {file : ℕ} (hfile : s.lookup tmp = some file) :
    Stages tmp s (syncAll file) fun _ t => t.contents tmp = s.contents tmp := by
  refine Stages.call (r := .ok ()) rfl rfl (.refile hs hfile _) ?_ ?_ ?_
  · intro _ _
    have hc : (s.refile file { s.inode file with dirty := false }).contents tmp =
        some (s.inode file).data := Volume.contents_refile_self hfile _
    exact hc.trans (Volume.contents_of_lookup hfile).symm
  · rintro _ _ ⟨⟩
    exact ⟨_, rfl⟩
  · exact fun t => .of_whole hs trivial

theorem stages_stage (hs : s.Wf) (contents : Bytes) (secret : Secret) :
    Stages tmp s (stage .unix tmp contents secret) fun _ t => t.contents tmp = some contents := by
  cases secret with
  | no =>
    apply (stages_fsCreate hs _).bind
    rintro file t hap ⟨hfile, hempty⟩
    exact stages_writeAll hap.wf hfile hempty contents
  | yes =>
    apply (stages_fsCreate hs _).bind
    rintro file t hap ⟨hfile, hempty⟩
    refine (stages_writeAll hap.wf hfile hempty contents).bind fun _ u hap' hwritten => ?_
    exact (stages_setPermissions hap'.wf _).mono fun ds o v ⟨hds, hv, hio, hsame⟩ =>
      ⟨hds, hv, hio, fun a ha => (hsame a ha).trans hwritten⟩

theorem Stages.bind_results {P : α → Volume String → Prop}
    {Q : List String → Option (Except DigTlsError β) → Volume String → Prop} (h : Stages tmp s p P)
    (next : ∀ a t, Volume.Apart tmp s t → P a t → Results (f a) t Q)
    (stopped : ∀ o t, Volume.Apart tmp s t → IoOnly o → (∀ b, o ≠ some (.ok b)) → Q [] o t) :
    Results (p >>= f) s Q := by
  refine Results.bind (h.mono ?_)
  rintro ds o t ⟨rfl, hap, hio, hP⟩
  rcases o with _ | e | a
  · exact stopped none t hap (by simp [IoOnly]) (by simp)
  · obtain ⟨i, rfl⟩ := hio e rfl
    exact stopped _ t hap (by simp [IoOnly]) (by simp)
  · exact (next a t hap (hP a rfl)).mono fun _ _ _ hq => hq

def Quiet (s : Volume String) (p : Task α) : Prop :=
  Results p s fun ds o t => ds = [] ∧ t.Wf ∧ (∀ q, t.contents q = s.contents q) ∧ IoOnly o

theorem Quiet.call {op : Op String} {next : op.Res → Task Unit} {r : Except IoError Unit}
    (hname : renamed [op] = []) (hnext : next (Volume.run op s).1 = orFail r)
    (hrun : (Volume.run op s).2.Wf ∧ ∀ q, (Volume.run op s).2.contents q = s.contents q)
    (fails : ∀ r' u, Volume.Fault op s r' u → ∃ e, next r' = .raise (.io e))
    (left : ∀ t, Volume.Partial op s t → t.Wf ∧ ∀ q, t.contents q = s.contents q) :
    Quiet s (.call op next) := by
  apply Ensures.call
  · change Ensures _ (next (Volume.run op s).1) (Volume.run op s).2 _
    rw [hnext]
    cases r with
    | ok a => exact Ensures.done ⟨hname, hrun.1, hrun.2, by simp [IoOnly]⟩
    | error e => exact Ensures.raise ⟨hname, hrun.1, hrun.2, by simp [IoOnly]⟩
  · intro r' u hf
    obtain ⟨e, he⟩ := fails r' u hf
    obtain ⟨hu, hsame⟩ := left u hf.left
    rw [he]
    exact Ensures.raise ⟨rfl, hu, hsame, by simp [IoOnly]⟩
  · intro t ht
    exact ⟨rfl, (left t ht).1, (left t ht).2, by simp [IoOnly]⟩

theorem quiet_syncDir (hs : s.Wf) : Quiet s syncDir := by
  have hsame : (Volume.run .syncDir s).2.Wf ∧ ∀ q, (Volume.run .syncDir s).2.contents q = s.contents q := by
    cases hp : s.present with
    | false => simpa [Volume.run, hp] using hs
    | true =>
      have hrun : (Volume.run .syncDir s).2 = { s with past := fun _ => [] } := by simp [Volume.run, hp]
      rw [hrun]
      exact ⟨⟨hs.single, hs.fresh⟩, fun _ => rfl⟩
  refine Quiet.call rfl rfl hsame ?_ ?_
  · rintro _ _ ⟨⟩
    exact ⟨_, rfl⟩
  · intro t ht
    rw [ht.eq_of_whole trivial]
    exact ⟨hs, fun _ => rfl⟩

/-- Once the directory has been synced, no entry can fall back any more. -/
def Synced (s : Volume String) : Prop := ∀ q, s.past q = []

theorem syncDir_syncs : Results syncDir s fun _ o t => (∃ b, o = some (.ok b)) → Synced t := by
  apply Ensures.call
  · change Ensures _ (orFail (Volume.run .syncDir s).1) (Volume.run .syncDir s).2 _
    cases hp : s.present with
    | false =>
      have hrun : Volume.run .syncDir s = (.error .notFound, s) := by simp [Volume.run, hp]
      rw [hrun]
      exact Ensures.raise (by simp)
    | true =>
      have hrun : Volume.run .syncDir s = (.ok (), { s with past := fun _ => [] }) := by
        simp [Volume.run, hp]
      rw [hrun]
      exact Ensures.done fun _ _ => rfl
  · rintro _ _ ⟨⟩
    exact Ensures.raise (by simp)
  · rintro _ ⟨⟩
    exact by simp

theorem quiet_setDirPermissions (hs : s.Wf) (mode : Mode) : Quiet s (setDirPermissions mode) := by
  have hsame : (Volume.run (.setDirPermissions mode) s).2.Wf ∧
      ∀ q, (Volume.run (.setDirPermissions mode) s).2.contents q = s.contents q := by
    cases hp : s.present with
    | false => simpa [Volume.run, hp] using hs
    | true =>
      have hrun : (Volume.run (.setDirPermissions mode) s).2 = { s with dirMode := mode } := by
        simp [Volume.run, hp]
      rw [hrun]
      exact ⟨⟨hs.single, hs.fresh⟩, fun _ => rfl⟩
  refine Quiet.call rfl rfl hsame ?_ ?_
  · rintro _ _ ⟨⟩
    exact ⟨_, rfl⟩
  · intro t ht
    rw [ht.eq_of_whole trivial]
    exact ⟨hs, fun _ => rfl⟩

theorem quiet_createDirAll (hs : s.Wf) : Quiet s createDirAll := by
  have hleft : ∀ t, Volume.Partial .createDirAll s t → t.Wf ∧ ∀ q, t.contents q = s.contents q := by
    rintro t (_ | _ | ⟨_, k⟩)
    · exact ⟨hs, fun _ => rfl⟩
    · exact Volume.makePath_spec hs k
  refine Quiet.call (r := .ok ()) rfl rfl (Volume.makePath_spec hs _) ?_ hleft
  rintro _ _ ⟨⟩
  exact ⟨_, rfl⟩

theorem Quiet.bind_results {p : Task α} {Q : List String → Option (Except DigTlsError β) → Volume String → Prop}
    (h : Quiet s p)
    (next : ∀ a t, t.Wf → (∀ q, t.contents q = s.contents q) → Results (f a) t Q)
    (stopped : ∀ o t, t.Wf → (∀ q, t.contents q = s.contents q) → IoOnly o → (∀ b, o ≠ some (.ok b)) →
      Q [] o t) : Results (p >>= f) s Q := by
  refine Results.bind (h.mono ?_)
  rintro ds o t ⟨rfl, hwf, hsame, hio⟩
  rcases o with _ | e | a
  · exact stopped none t hwf hsame (by simp [IoOnly]) (by simp)
  · obtain ⟨i, rfl⟩ := hio e rfl
    exact stopped _ t hwf hsame (by simp [IoOnly]) (by simp)
  · exact (next a t hwf hsame).mono fun _ _ _ hq => hq

theorem results_fsRename (hs : s.Wf) {source target : String} (hne : source ≠ target) {contents : Bytes}
    (hc : s.contents source = some contents) : Results (fsRename source target) s fun ds o t =>
      (ds = [] ∧ t = s ∧ IoOnly o ∧ ∀ b, o ≠ some (.ok b)) ∨
      (ds = [target] ∧ o = some (.ok ()) ∧ t.Wf ∧ t.contents target = some contents ∧
        t.contents source = none ∧ ∀ q, q ≠ source → q ≠ target → t.contents q = s.contents q) := by
  apply Ensures.call
  · rcases Volume.rename_spec hs hne (r := (s.rename source target).1) rfl with
      ⟨hr, hwf, _, htarget, _, hsource, helse⟩ | ⟨_, _, hnone⟩
    · change Ensures _ (orFail (s.rename source target).1) (s.rename source target).2 _
      rw [hr]
      exact Ensures.done (Or.inr ⟨rfl, rfl, hwf, htarget.trans hc, hsource, helse⟩)
    · rw [hnone] at hc
      cases hc
  · rintro _ _ ⟨⟩
    exact Ensures.raise (Or.inl ⟨rfl, rfl, by simp [IoOnly], by simp⟩)
  · rintro _ ⟨⟩
    exact Or.inl ⟨rfl, rfl, by simp [IoOnly], by simp⟩

/-- What a slot write leaves: the old file, and then it has not answered, or the whole new one. -/
def Replaced (dest : String) (contents : Bytes) (s : Volume String) (ds : List String)
    (o : Option (Except DigTlsError Unit)) (t : Volume String) : Prop :=
  t.Wf ∧ IoOnly o ∧ (∀ q, q ≠ dest → q ≠ tmpPath dest → t.contents q = s.contents q) ∧
    (ds = [] ∧ t.contents dest = s.contents dest ∧ (∀ b, o ≠ some (.ok b)) ∨
      ds = [dest] ∧ t.contents dest = some contents ∧ t.contents (tmpPath dest) = none ∧
        ((∃ b, o = some (.ok b)) → Synced t))

theorem results_atomicWrite (hs : s.Wf) {dest : String} (hne : tmpPath dest ≠ dest) (contents : Bytes)
    (secret : Secret) :
    Results (atomicWrite .unix dest contents secret) s (Replaced dest contents s) := by
  have stopped : ∀ o t, Volume.Apart (tmpPath dest) s t → IoOnly o → (∀ b, o ≠ some (.ok b)) →
      Replaced dest contents s [] o t := fun o t hap hio hno =>
    ⟨hap.wf, hio, fun q _ hq => hap.elsewhere q hq, Or.inl ⟨rfl, hap.elsewhere dest hne.symm, hno⟩⟩
  refine (stages_stage hs contents secret).bind_results (fun _ t hap hstaged => ?_) stopped
  refine (stages_openWrite hap.wf).bind_results ?_
    fun o u hu => stopped o u (hap.trans hu)
  rintro file u - ⟨rfl, hfile⟩
  refine (stages_syncAll hap.wf hfile).bind_results (fun _ v hv hsame => ?_)
    fun o v hv => stopped o v (hap.trans hv)
  have hapv := hap.trans hv
  refine Results.bind ((results_fsRename hapv.wf hne (hsame.trans hstaged)).mono ?_)
  rintro ds o w (⟨rfl, rfl, hio, hno⟩ | ⟨rfl, rfl, hwf, hdest, htmp, helse⟩)
  · rcases o with _ | e | _
    · exact stopped _ _ hapv (by simp [IoOnly]) (by simp)
    · obtain ⟨i, rfl⟩ := hio e rfl
      exact stopped _ _ hapv (by simp [IoOnly]) (by simp)
    · exact absurd rfl (hno _)
  · apply ((quiet_syncDir hwf).and syncDir_syncs).mono
    rintro ds o x ⟨⟨rfl, hx, hxsame, hio⟩, hsync⟩
    refine ⟨hx, hio, fun q hq hqt => ?_,
      Or.inr ⟨rfl, (hxsame dest).trans hdest, (hxsame _).trans htmp, hsync⟩⟩
    rw [hxsame, helse q hqt hq, hapv.elsewhere q hqt]

end Rules

structure SlotWrite where
  path : String
  contents : Bytes
  secret : Secret

def writeSlots : List SlotWrite → Task Unit
  | [] => .done ()
  | w :: ws => atomicWrite .unix w.path w.contents w.secret >>= fun _ => writeSlots ws

def patch (files : String → Option Bytes) : List SlotWrite → String → Option Bytes
  | [] => files
  | w :: ws => patch (Function.update files w.path (some w.contents)) ws

def slotFiles : List String := [certFile, keyFile, certFilePrev, keyFilePrev]

theorem tmpPath_not_slot : ∀ d ∈ slotFiles, ∀ q ∈ slotFiles, q ≠ tmpPath d := by decide

theorem patch_congr {f g : String → Option Bytes} {ws : List SlotWrite}
    (h : ∀ q ∈ slotFiles, f q = g q) : ∀ q ∈ slotFiles, patch f ws q = patch g ws q := by
  induction ws generalizing f g with
  | nil => exact h
  | cons w ws ih =>
    refine ih fun q hq => ?_
    by_cases hqw : q = w.path
    · simp [hqw]
    · rw [Function.update_of_ne hqw, Function.update_of_ne hqw, h q hq]

/-- Nothing of these writes is still staged, and nothing waits for a sync. -/
structure Tidy (ws : List SlotWrite) (s t : Volume String) : Prop where
  synced : Synced t ∨ ws = [] ∧ t = s
  unstaged : ∀ w ∈ ws, t.contents (tmpPath w.path) = none

/-- What a row of slot writes leaves: some first part of it is done, all of it when it answers. -/
def SlotsWritten (ws : List SlotWrite) (s : Volume String) (ds : List String)
    (o : Option (Except DigTlsError Unit)) (t : Volume String) : Prop :=
  t.Wf ∧ IoOnly o ∧ (∀ q, (∀ w ∈ ws, q ≠ w.path ∧ q ≠ tmpPath w.path) → t.contents q = s.contents q) ∧
  ∃ k ≤ ws.length, ds = (ws.take k).map SlotWrite.path ∧
    (∀ q ∈ slotFiles, t.contents q = patch s.contents (ws.take k) q) ∧
    ((∃ b, o = some (.ok b)) → k = ws.length ∧ Tidy ws s t)

theorem results_writeSlots {ws : List SlotWrite} (hws : ∀ w ∈ ws, w.path ∈ slotFiles)
    {s : Volume String} (hs : s.Wf) : Results (writeSlots ws) s (SlotsWritten ws s) := by
  induction ws generalizing s with
  | nil =>
    exact Ensures.done ⟨hs, by simp [IoOnly], fun _ _ => rfl, 0, le_rfl, rfl, fun _ _ => rfl,
      fun _ => ⟨rfl, Or.inr ⟨rfl, rfl⟩, by simp⟩⟩
  | cons w ws ih =>
    have hw := hws w (by simp)
    have hne := (tmpPath_not_slot w.path hw w.path hw).symm
    refine Results.bind ((results_atomicWrite hs hne w.contents w.secret).mono ?_)
    rintro ds o t ⟨hwf, hio, helse, ⟨rfl, hdest, hno⟩ | ⟨rfl, hdest, htmp, hsync⟩⟩
    · have hsame : ∀ q ∈ slotFiles, t.contents q = s.contents q := by
        intro q hq
        by_cases hqw : q = w.path
        · rw [hqw, hdest]
        · exact helse q hqw (tmpPath_not_slot w.path hw q hq)
      have stopped : ∀ o' : Option (Except DigTlsError Unit), IoOnly o' → (∀ b, o' ≠ some (.ok b)) →
          SlotsWritten (w :: ws) s [] o' t := fun o' hio' hno' =>
        ⟨hwf, hio', fun q hq => helse q (hq w (by simp)).1 (hq w (by simp)).2, 0, Nat.zero_le _, rfl,
          hsame, fun ⟨b, hb⟩ => absurd hb (hno' b)⟩
      rcases o with _ | e | _
      · exact stopped _ (by simp [IoOnly]) (by simp)
      · exact stopped _ hio (by simp)
      · exact absurd rfl (hno _)
    · have hfirst : ∀ q ∈ slotFiles,
          t.contents q = Function.update s.contents w.path (some w.contents) q := by
        intro q hq
        by_cases hqw : q = w.path
        · rw [hqw, hdest, Function.update_self]
        · rw [Function.update_of_ne hqw, helse q hqw (tmpPath_not_slot w.path hw q hq)]
      have stopped : ∀ o' : Option (Except DigTlsError Unit), IoOnly o' → (∀ b, o' ≠ some (.ok b)) →
          SlotsWritten (w :: ws) s [w.path] o' t := fun o' hio' hno' =>
        ⟨hwf, hio', fun q hq => helse q (hq w (by simp)).1 (hq w (by simp)).2, 1, by simp, rfl,
          hfirst, fun ⟨b, hb⟩ => absurd hb (hno' b)⟩
      rcases o with _ | e | _
      · exact stopped _ (by simp [IoOnly]) (by simp)
      · exact stopped _ hio (by simp)
      · refine (ih (fun v hv => hws v (List.mem_cons_of_mem _ hv)) hwf).mono ?_
        rintro ds o u ⟨hu, hio', helse', k, hk, rfl, hpatch, hall⟩
        refine ⟨hu, hio', fun q hq => ?_, k + 1, by simpa using hk, rfl, fun q hq => ?_, fun ho => ?_⟩
        · rw [helse' q fun v hv => hq v (List.mem_cons_of_mem _ hv)]
          exact helse q (hq w (by simp)).1 (hq w (by simp)).2
        · rw [hpatch q hq]
          exact patch_congr hfirst q hq
        · obtain ⟨hk, htidy⟩ := hall ho
          refine ⟨by simp [hk], Or.inl ?_, fun v hv => ?_⟩
          · rcases htidy.synced with hsynced | ⟨_, rfl⟩
            · exact hsynced
            · exact hsync ⟨_, rfl⟩
          · rcases List.mem_cons.mp hv with rfl | hv
            · by_cases hagain : ∃ x ∈ ws, tmpPath v.path = tmpPath x.path
              · obtain ⟨x, hx, heq⟩ := hagain
                rw [heq]
                exact htidy.unstaged x hx
              · rw [helse' (tmpPath v.path) fun x hx => ⟨?_, fun heq => hagain ⟨x, hx, heq⟩⟩, htmp]
                exact (tmpPath_not_slot v.path hw x.path (hws x (List.mem_cons_of_mem _ hx))).symm
            · exact htidy.unstaged v hv

end DigTls
