import DigTls.Posix.Residue
import DigTls.Store.Runs

/-! # Where the operations put key material

The operations copy the current pair, as the slot files give it, and what they mint. A secret
that is in neither stays where it is: no call puts it under another name.
-/
namespace DigTls
open EffectPrograms PosixVolume Volume
variable {B : Backend}

/-- The names the operations use: the slot files and the files they are staged through. -/
def directoryFiles : List String := slotFiles ++ slotFiles.map tmpPath

/-- The identity's texts do not contain the secret. -/
def NodeCert.Spares (secret : Bytes) (x : NodeCert) : Prop :=
  ¬ secret <:+: asBytes x.certPem ∧ ¬ secret <:+: asBytes x.keyPem

def Call.minting : Call B → Option (NodeCert.Minting B)
  | .loadOrGenerate m | .rotate m => some m
  | .loadPrevious | .retirePrevious => none

def Call.Spares (secret : Bytes) (c : Call B) : Prop :=
  ∀ m, c.minting = some m → ∀ x, NodeCert.generateSigned B m = .ok x → x.Spares secret

def Event.Spares (secret : Bytes) : Event B → Prop
  | .call c _ _ => c.Spares secret
  | .powerLoss => True

section Programs
variable {secret : Bytes} {seen kept : Set String} {α : Type} {A : α → Prop}

theorem keeps_of_reads {I : Volume String → Prop} {p : Task α} {P : Volume String → α → Prop}
    (h : ∀ s, Reads s p (P s)) (hA : ∀ s, I s → ∀ a, P s a → A a) : Keeps (posix String) I p A := by
  intro s hs trace o t ho
  obtain ⟨_, rfl, hP⟩ := h s trace o t ho
  exact ⟨hs, fun a ha => hA _ hs a (hP a ha)⟩

theorem keeps_weaken {I : Volume String → Prop} {p : Task α} (h : Keeps (posix String) I p A) :
    Keeps (posix String) I p fun _ => True :=
  fun s hs => (h s hs).mono fun _ _ _ hq => ⟨hq.1, fun _ _ => trivial⟩

theorem keeps_orFail {I : Volume String → Prop} (r : Except IoError α) :
    Keeps (posix String) I (orFail r) fun _ => True := by
  cases r with
  | ok a => exact Keeps.done trivial
  | error e => exact Keeps.raise

theorem keeps_pathExists {I : Volume String → Prop} (path : String) :
    Keeps (posix String) I (pathExists path) fun _ => True :=
  keeps_of_reads (fun _ => reads_pathExists) fun _ _ _ _ => trivial

theorem keeps_retirePrevious {I : Volume String → Prop}
    (hremove : ∀ path ∈ [keyFilePrev, certFilePrev], Keeps (posix String) I (removeFile path) fun _ => True) :
    Keeps (posix String) I retirePrevious fun _ => True := by
  have hkey : Keeps (posix String) I retireKey fun _ => True := by
    refine Keeps.bind (keeps_pathExists _) fun b _ => ?_
    cases b with
    | false => exact Keeps.done trivial
    | true =>
      refine Keeps.bind (keeps_of_reads (fun _ => reads_fsRead) fun _ _ _ _ => trivial) fun _ _ => ?_
      exact hremove _ (by simp)
  refine Keeps.bind hkey fun _ _ => Keeps.bind (keeps_pathExists _) fun b _ => ?_
  cases b with
  | false => exact Keeps.done trivial
  | true => exact hremove _ (by simp)

/-- A slot among the names that do not contain the secret gives an identity that does not. -/
theorem keeps_loadSlot {slot : Slot} (hcert : slot.cert ∈ seen) (hkey : slot.key ∈ seen) :
    Keeps (posix String) (Confined secret seen kept) (loadSlot B slot) (NodeCert.Spares secret) :=
  keeps_of_reads (fun _ => reads_loadSlot) fun _ hs _ hnode =>
    ⟨hs.contents hcert hnode.cert, hs.contents hkey hnode.key⟩

variable (hsub : kept ⊆ seen) (hsecret : secret ≠ [])
include hsub hsecret

theorem keeps_fsCall (op : Op String) (hop : op.Careful seen) {next : op.Res → Task α}
    (hnext : ∀ r, Keeps (posix String) (Confined secret seen kept) (next r) fun _ => True) :
    Keeps (posix String) (Confined secret seen kept) (.call op next) fun _ => True :=
  keeps_careful hsub hsecret hop hnext

theorem keeps_stage {contents : Bytes} (hclean : ¬ secret <:+: contents) (tmp : String) (kind : Secret) :
    Keeps (posix String) (Confined secret seen kept) (stage .unix tmp contents kind) fun _ => True := by
  cases kind with
  | no =>
    exact keeps_create_write hsub hsecret hclean (fun _ => rfl) (fun _ => Keeps.raise) fun r => keeps_orFail r
  | yes =>
    refine keeps_create_write hsub hsecret hclean (k := fun r => orFail r >>= fun _ =>
      setPermissions tmp 0o600#12) (fun _ => rfl) (fun _ => Keeps.raise) fun r => ?_
    refine Keeps.bind (keeps_orFail r) fun _ _ => ?_
    exact keeps_fsCall hsub hsecret (.setPermissions _ _) trivial keeps_orFail

theorem keeps_atomicWrite {dest : String} {contents : Bytes} (hclean : ¬ secret <:+: contents)
    (htmp : tmpPath dest ∈ seen) (kind : Secret) :
    Keeps (posix String) (Confined secret seen kept) (atomicWrite .unix dest contents kind) fun _ => True := by
  refine Keeps.bind (keeps_stage hsub hsecret hclean _ _) fun _ _ => ?_
  refine Keeps.bind (keeps_fsCall hsub hsecret (.openWrite _) trivial keeps_orFail) fun file _ => ?_
  refine Keeps.bind (keeps_fsCall hsub hsecret (.syncAll file) trivial keeps_orFail) fun _ _ => ?_
  refine Keeps.bind (keeps_fsCall hsub hsecret (.rename _ _) htmp keeps_orFail) fun _ _ => ?_
  exact keeps_fsCall hsub hsecret .syncDir trivial keeps_orFail

theorem keeps_writeSlots {ws : List SlotWrite}
    (h : ∀ w ∈ ws, ¬ secret <:+: w.contents ∧ tmpPath w.path ∈ seen) :
    Keeps (posix String) (Confined secret seen kept) (writeSlots ws) fun _ => True := by
  induction ws with
  | nil => exact Keeps.done trivial
  | cons w ws ih =>
    obtain ⟨hclean, htmp⟩ := h w (by simp)
    refine Keeps.bind (keeps_atomicWrite hsub hsecret hclean htmp _) fun _ _ => ?_
    exact ih fun v hv => h v (List.mem_cons_of_mem _ hv)

variable (hcert : certFile ∈ seen) (hkey : keyFile ∈ seen) (htmp : ∀ d ∈ slotFiles, tmpPath d ∈ seen)
include htmp

theorem keeps_persistFresh {x : NodeCert} (hx : x.Spares secret) :
    Keeps (posix String) (Confined secret seen kept) (persistFresh .unix x) fun _ => True := by
  rw [persistFresh_eq]
  refine Keeps.bind (keeps_fsCall hsub hsecret .createDirAll trivial keeps_orFail) fun _ _ => ?_
  refine Keeps.bind (keeps_fsCall hsub hsecret (.setDirPermissions _) trivial keeps_orFail) fun _ _ => ?_
  refine Keeps.bind (keeps_writeSlots hsub hsecret fun w hw => ?_) fun _ _ => Keeps.done trivial
  refine ⟨?_, htmp w.path (freshWrites_slots x w hw)⟩
  simp only [freshWrites, List.mem_cons, List.not_mem_nil, or_false] at hw
  rcases hw with rfl | rfl
  · exact hx.1
  · exact hx.2

theorem keeps_persistRotation {p x : NodeCert} (hp : p.Spares secret) (hx : x.Spares secret) :
    Keeps (posix String) (Confined secret seen kept) (persistRotation .unix p x) fun _ => True := by
  rw [persistRotation_eq]
  refine Keeps.bind (keeps_fsCall hsub hsecret (.setDirPermissions _) trivial keeps_orFail) fun _ _ => ?_
  refine Keeps.bind (keeps_writeSlots hsub hsecret fun w hw => ?_) fun _ _ => Keeps.done trivial
  refine ⟨?_, htmp w.path (rotationWrites_slots p x w hw)⟩
  simp only [rotationWrites, List.mem_cons, List.not_mem_nil, or_false] at hw
  rcases hw with rfl | rfl | rfl | rfl
  · exact hp.1
  · exact hp.2
  · exact hx.1
  · exact hx.2

include hcert hkey

theorem keeps_loadOrGenerate (m : NodeCert.Minting B)
    (hm : ∀ x, NodeCert.generateSigned B m = .ok x → x.Spares secret) :
    Keeps (posix String) (Confined secret seen kept) (loadOrGenerate .unix m) fun _ => True := by
  refine Keeps.bind (A := fun _ => True) (keeps_of_reads (fun _ => reads_bothExist) fun _ _ _ _ => trivial)
    fun b _ => ?_
  cases b with
  | true => exact keeps_weaken (keeps_loadSlot hcert hkey)
  | false =>
    change Keeps _ _ (.ofExcept (NodeCert.generateSigned B m) >>= fun node => persistFresh .unix node) _
    cases hx : NodeCert.generateSigned B m with
    | error e => exact Keeps.raise
    | ok x => exact keeps_persistFresh hsub hsecret htmp (hm x hx)

theorem keeps_rotate (m : NodeCert.Minting B)
    (hm : ∀ x, NodeCert.generateSigned B m = .ok x → x.Spares secret) :
    Keeps (posix String) (Confined secret seen kept) (rotate .unix m) fun _ => True := by
  refine Keeps.bind (A := fun _ => True) (keeps_of_reads (fun _ => reads_bothExist) fun _ _ _ _ => trivial)
    fun b _ => ?_
  cases b with
  | false => exact Keeps.raise
  | true =>
    refine Keeps.bind (A := fun _ => True)
      (keeps_of_reads (fun _ => reads_eitherExists) fun _ _ _ _ => trivial) fun b _ => ?_
    cases b with
    | true => exact Keeps.raise
    | false =>
      refine Keeps.bind (keeps_loadSlot hcert hkey) fun p hp => ?_
      change Keeps _ _ (.ofExcept (NodeCert.generateSigned B m) >>= fun x => persistRotation .unix p x) _
      cases hx : NodeCert.generateSigned B m with
      | error e => exact Keeps.raise
      | ok x => exact keeps_persistRotation hsub hsecret htmp hp (hm x hx)

/-- The operations copy nothing but the current pair and what they mint. -/
theorem keeps_call (c : Call B) (hc : c.Spares secret) :
    Keeps (posix String) (Confined secret seen kept) (c.program .unix) fun _ => True := by
  cases c with
  | loadOrGenerate m =>
    exact Keeps.bind (keeps_loadOrGenerate hsub hsecret hcert hkey htmp m (hc m rfl)) fun _ _ =>
      Keeps.done trivial
  | rotate m =>
    exact Keeps.bind (keeps_rotate hsub hsecret hcert hkey htmp m (hc m rfl)) fun _ _ => Keeps.done trivial
  | loadPrevious =>
    refine Keeps.bind (A := fun _ => True) (keeps_of_reads (fun _ => loadPrevious_reads) ?_) fun _ _ =>
      Keeps.done trivial
    exact fun _ _ _ _ => trivial
  | retirePrevious =>
    refine Keeps.bind (keeps_retirePrevious fun path _ => ?_) fun _ _ => Keeps.done trivial
    exact keeps_fsCall hsub hsecret (.removeFile path) trivial keeps_orFail

end Programs
end DigTls
