import DigTls.Posix.Visible
import DigTls.Store.Runs

/-! # Calls that find nothing to do

A call that would change no slot file only reads, and reads the same as long as the slot files
stay as they are. Which calls these are depends on which files are there.
-/
namespace DigTls
open EffectPrograms PosixVolume Volume
variable {B : Backend} {α β : Type} {I : Volume String → Prop} {s u : Volume String}

def slotContents (s : Volume String) : List (Option Bytes) := slotFiles.map s.contents

abbrev Still (I : Volume String → Prop) (r : Except DigTlsError α) (p : Task α) : Prop :=
  p.Steady (posix String) visible I r

section Reading
variable {path : String} (slot : Slot)

theorem still_pathExists {b : Bool} (h : ∀ u, I u → (u.contents path).isSome = b) :
    Still I (.ok b) (pathExists path) := by
  intro u hu
  refine ⟨rfl, ?_⟩
  have hb : (Volume.run (.pathExists path) u).1 = b := contents_isSome.symm.trans (h u hu)
  change some (Except.ok (Volume.run (.pathExists path) u).1) = some (.ok b)
  rw [hb]

theorem still_orFail (r : Except IoError α) : ∃ a, Still I a (orFail r) := by
  cases r with
  | ok a => exact ⟨.ok a, rfl⟩
  | error e => exact ⟨.error (.io e), rfl⟩

theorem still_readToString {c : Option Bytes} (h : ∀ u, I u → u.contents path = c) :
    ∃ r, Still I r (readToString path) := by
  have hans : ∃ r : Except IoError String, ∀ u, I u → Volume.run (.readToString path) u = (r, u) := by
    cases c with
    | none => exact ⟨.error .notFound, fun u hu => by simp [Volume.run, h u hu]⟩
    | some bytes =>
      cases ht : fromUtf8 bytes with
      | none => exact ⟨.error .invalidData, fun u hu => by simp [Volume.run, h u hu, ht]⟩
      | some text => exact ⟨.ok text, fun u hu => by simp [Volume.run, h u hu, ht]⟩
  obtain ⟨r, hr⟩ := hans
  obtain ⟨a, ha⟩ := still_orFail (I := I) r
  refine ⟨a, fun u hu => ?_⟩
  have hrun := hr u hu
  refine ⟨?_, ?_⟩
  · change visible (Volume.run (.readToString path) u).2 = visible u
    rw [hrun]
  · change Still I a (orFail (Volume.run (.readToString path) u).1)
    rw [hrun]
    exact ha

theorem still_bind {p : Task α} {f : α → Task β} (hp : ∃ r, Still I r p)
    (hf : ∀ a, Still I (.ok a) p → ∃ r, Still I r (f a)) : ∃ r, Still I r (p >>= f) := by
  obtain ⟨r, hr⟩ := hp
  cases r with
  | ok a =>
    obtain ⟨b, hb⟩ := hf a hr
    exact ⟨b, hr.bind hb⟩
  | error e => exact ⟨_, hr.bind_error⟩

theorem still_bothExist {b b' : Bool} (hcert : ∀ u, I u → (u.contents slot.cert).isSome = b)
    (hkey : ∀ u, I u → (u.contents slot.key).isSome = b') : Still I (.ok (b && b')) (bothExist slot) := by
  apply (still_pathExists hcert).bind
  cases b with
  | false => exact rfl
  | true => exact still_pathExists hkey

theorem still_eitherExists {b b' : Bool} (hcert : ∀ u, I u → (u.contents slot.cert).isSome = b)
    (hkey : ∀ u, I u → (u.contents slot.key).isSome = b') : Still I (.ok (b || b')) (eitherExists slot) := by
  apply (still_pathExists hcert).bind
  cases b with
  | true => exact rfl
  | false => exact still_pathExists hkey

theorem still_loadSlot {c k : Option Bytes} (hcert : ∀ u, I u → u.contents slot.cert = c)
    (hkey : ∀ u, I u → u.contents slot.key = k) : ∃ r, Still I r (loadSlot B slot) := by
  refine still_bind (still_readToString hcert) fun certPem _ => ?_
  refine still_bind (still_readToString hkey) fun keyPem _ => ?_
  cases NodeCert.fromPem B certPem keyPem with
  | ok node => exact ⟨.ok node, rfl⟩
  | error e => exact ⟨.error e, rfl⟩

theorem still_after_bothExist {b b' : Bool} {f : Bool → Task α}
    (hcert : ∀ u, I u → (u.contents slot.cert).isSome = b)
    (hkey : ∀ u, I u → (u.contents slot.key).isSome = b') (hf : ∃ r, Still I r (f (b && b'))) :
    ∃ r, Still I r (bothExist slot >>= f) := by
  obtain ⟨r, hr⟩ := hf
  exact ⟨r, (still_bothExist slot hcert hkey).bind hr⟩

theorem still_after_eitherExists {b b' : Bool} {f : Bool → Task α}
    (hcert : ∀ u, I u → (u.contents slot.cert).isSome = b)
    (hkey : ∀ u, I u → (u.contents slot.key).isSome = b') (hf : ∃ r, Still I r (f (b || b'))) :
    ∃ r, Still I r (eitherExists slot >>= f) := by
  obtain ⟨r, hr⟩ := hf
  exact ⟨r, (still_eitherExists slot hcert hkey).bind hr⟩

theorem still_unminted {m : NodeCert.Minting B} {f : NodeCert → Task α}
    (h : ¬ ∃ x, NodeCert.generateSigned B m = .ok x) :
    ∃ r, Still I r (.ofExcept (NodeCert.generateSigned B m) >>= f) := by
  cases hx : NodeCert.generateSigned B m with
  | ok x => exact absurd ⟨x, hx⟩ h
  | error e => exact ⟨.error e, rfl⟩

theorem still_loadOrGenerate {c k : Option Bytes} (hcert : ∀ u, I u → u.contents certFile = c)
    (hkey : ∀ u, I u → u.contents keyFile = k) (hboth : (c.isSome && k.isSome) = true)
    (m : NodeCert.Minting B) : ∃ r, Still I r (loadOrGenerate .unix m) := by
  refine still_after_bothExist currentSlot (fun u hu => congrArg Option.isSome (hcert u hu))
    (fun u hu => congrArg Option.isSome (hkey u hu)) ?_
  rw [hboth]
  exact still_loadSlot currentSlot hcert hkey

theorem still_retirePrevious (hcert : ∀ u, I u → (u.contents certFilePrev).isSome = false)
    (hkey : ∀ u, I u → (u.contents keyFilePrev).isSome = false) :
    Still I (.ok .retired) ((Call.retirePrevious (B := B)).program .unix) := by
  have hretireKey : Still I (.ok ()) retireKey := (still_pathExists hkey).bind rfl
  have hretireCert : Still I (.ok ()) retireCert := (still_pathExists hcert).bind rfl
  have hboth : Still I (.ok ()) retirePrevious := hretireKey.bind hretireCert
  exact hboth.bind rfl

end Reading

def Alike (s u : Volume String) : Prop := ∀ q ∈ slotFiles, u.contents q = s.contents q

theorem shown_alike (s : Volume String) : Shown visible (Alike s) := by
  intro u v h hu q hq
  rw [contents_visible h]
  exact hu q hq

def FirstRun (m : NodeCert.Minting B) (s : Volume String) : Prop :=
  s.contents keyFile = none ∧ ∃ x, NodeCert.generateSigned B m = .ok x

def Rotatable (m : NodeCert.Minting B) (s : Volume String) : Prop :=
  (∃ p, Holds B s currentSlot p) ∧ s.contents certFilePrev = none ∧ s.contents keyFilePrev = none ∧
    ∃ x, NodeCert.generateSigned B m = .ok x

/-- Made alone from `s`, the call would change slot files. -/
def Call.Writes (s : Volume String) : Call B → Prop
  | .loadOrGenerate m => FirstRun m s
  | .rotate m => Rotatable m s
  | .loadPrevious => False
  | .retirePrevious => s.contents certFilePrev ≠ none

def Call.Rotates (s : Volume String) : Call B → Prop
  | .rotate m => Rotatable m s
  | _ => False

/-- A key is never there without its certificate, nor a previous slot without a current one. -/
structure Orderly (s : Volume String) : Prop where
  current : s.contents keyFile ≠ none → s.contents certFile ≠ none
  previous : s.contents keyFilePrev ≠ none → s.contents certFilePrev ≠ none
  behind : s.contents certFilePrev ≠ none → s.contents keyFile ≠ none

theorem orderly_call {c : Call B} {ds : List String} {o : Option (Except DigTlsError Reply)}
    (h : Orderly s) (hleaves : CallLeaves B s c ds o u) : Orderly u := by
  obtain ⟨hcur, hprev, hbehind⟩ := h
  have kept : (∀ q ∈ slotFiles, u.contents q = s.contents q) → Orderly u := by
    intro hsame
    have hcert := hsame certFile (by decide)
    have hkey := hsame keyFile (by decide)
    have hprevCert := hsame certFilePrev (by decide)
    have hprevKey := hsame keyFilePrev (by decide)
    exact ⟨by rwa [hcert, hkey], by rwa [hprevCert, hprevKey], by rwa [hprevCert, hkey]⟩
  cases hleaves with
  | loaded _ same _ => exact kept same
  | refused _ same _ => exact kept same
  | previous _ same _ => exact kept same
  | minted _ vacant _ _ stage _ _ =>
    have hnokey : s.contents keyFile = none := by
      rcases vacant with hcert | hkey
      · by_contra hkey
        exact hcur hkey hcert
      · exact hkey
    have hnoprev : s.contents certFilePrev = none := by
      by_contra hcert
      exact hbehind hcert hnokey
    refine ⟨fun hkey => ?_, ?_, fun hcert => ?_⟩
    · rw [stage.key] at hkey
      rw [stage.cert]
      split_ifs at hkey
      · rw [if_pos (by omega)]
        simp
      · exact absurd hnokey hkey
    · rw [stage.prevCert, stage.prevKey]
      exact hprev
    · rw [stage.prevCert] at hcert
      exact absurd hnoprev hcert
  | rotated _ holds free _ _ stage _ _ _ =>
    have hcert : s.contents certFile = some _ := holds.cert
    have hkey : s.contents keyFile = some _ := holds.key
    refine ⟨fun _ => ?_, fun hprevKey => ?_, fun _ => ?_⟩
    · rw [stage.cert, hcert]
      split_ifs <;> simp
    · rw [stage.prevKey] at hprevKey
      split_ifs at hprevKey
      · rw [stage.prevCert, if_pos (by omega)]
        simp
      · exact absurd free.2 hprevKey
    · rw [stage.key, hkey]
      split_ifs <;> simp
  | retired _ _ stage _ =>
    refine ⟨?_, fun hprevKey => ?_, fun hprevCert => ?_⟩
    · rw [stage.cert, stage.key]
      exact hcur
    · rw [stage.prevKey] at hprevKey
      split_ifs at hprevKey with hk
      · exact absurd rfl hprevKey
      · rw [stage.prevCert, if_neg (by omega)]
        exact hprev hprevKey
    · rw [stage.prevCert] at hprevCert
      split_ifs at hprevCert
      · exact absurd rfl hprevCert
      · rw [stage.key]
        exact hbehind hprevCert

theorem run_orderly {s₀ : Volume String} {ls : List (Volume String × Event B)} (hvacant : Vacant s₀)
    (hrun : Run B noLoss s₀ ls s) : Orderly s := by
  have hstart : s₀.Wf ∧ Orderly s₀ :=
    ⟨hvacant.wf, by simp [hvacant.contents], by simp [hvacant.contents], by simp [hvacant.contents]⟩
  have hreach := hrun.invariant (I := fun v => v.Wf ∧ Orderly v) (C := fun _ _ => True) hstart
    (fun _ _ => trivial) fun u e v _ hu hstep => by
      obtain ⟨_, _, _, _, _, hleaves⟩ := step_leaves hu.1 hstep
      exact ⟨hleaves.wf, orderly_call hu.2 hleaves⟩
  exact hreach.2

theorem Orderly.missing (h : Orderly s)
    (hboth : ((s.contents certFile).isSome && (s.contents keyFile).isSome) = false) :
    s.contents keyFile = none := by
  by_contra hkey
  have hcert := h.current hkey
  simp [Option.isSome_iff_ne_none.mpr hcert, Option.isSome_iff_ne_none.mpr hkey] at hboth

section Idle
variable {m : NodeCert.Minting B}

theorem alike_isSome {q : String} (hq : q ∈ slotFiles) (u : Volume String) (hu : Alike s u) :
    (u.contents q).isSome = (s.contents q).isSome := by
  rw [hu q hq]

theorem alike_contents {q : String} (hq : q ∈ slotFiles) (u : Volume String) (hu : Alike s u) :
    u.contents q = s.contents q :=
  hu q hq

theorem still_idle_load (h : Orderly s) (hidle : ¬ FirstRun m s) :
    ∃ r, Still (Alike s) r (loadOrGenerate .unix m) := by
  cases hboth : ((s.contents certFile).isSome && (s.contents keyFile).isSome) with
  | true => exact still_loadOrGenerate (alike_contents (by decide)) (alike_contents (by decide)) hboth m
  | false =>
    apply still_after_bothExist currentSlot (alike_isSome (by decide)) (alike_isSome (by decide))
    change ∃ r, Still (Alike s) r
      (if ((s.contents certFile).isSome && (s.contents keyFile).isSome) = true then loadSlot B currentSlot
        else .ofExcept (NodeCert.generateSigned B m) >>= fun node => persistFresh .unix node)
    rw [hboth]
    apply still_unminted
    intro hx
    exact hidle ⟨h.missing hboth, hx⟩

theorem still_idle_rotate (hidle : ¬ Rotatable m s) : ∃ r, Still (Alike s) r (rotate .unix m) := by
  apply still_after_bothExist currentSlot (alike_isSome (by decide)) (alike_isSome (by decide))
  cases (s.contents currentSlot.cert).isSome && (s.contents currentSlot.key).isSome with
  | false => exact ⟨.error noCurrent, rfl⟩
  | true =>
    apply still_after_eitherExists prevSlot (alike_isSome (by decide)) (alike_isSome (by decide))
    cases heither : (s.contents prevSlot.cert).isSome || (s.contents prevSlot.key).isSome with
    | true => exact ⟨.error unretired, rfl⟩
    | false =>
      have hfree : s.contents prevSlot.cert = none ∧ s.contents prevSlot.key = none := by
        simpa [Bool.or_eq_false_iff] using heither
      have hload : ∃ r, Still (Alike s) r (loadSlot B currentSlot) :=
        still_loadSlot currentSlot (alike_contents (by decide)) (alike_contents (by decide))
      refine still_bind hload fun p hstill => ?_
      have hp : Holds B s currentSlot p := loadSlot_ok_iff.mp (hstill.exec (shown_alike s) fun _ _ => rfl).1
      apply still_unminted
      intro hx
      exact hidle ⟨⟨p, hp⟩, hfree.1, hfree.2, hx⟩

theorem still_idle_loadPrevious : ∃ r, Still (Alike s) r (loadPrevious B) := by
  apply still_after_bothExist prevSlot (alike_isSome (by decide)) (alike_isSome (by decide))
  cases (s.contents prevSlot.cert).isSome && (s.contents prevSlot.key).isSome with
  | false => exact ⟨.ok none, rfl⟩
  | true =>
    have hload : ∃ r, Still (Alike s) r (loadSlot B prevSlot) :=
      still_loadSlot prevSlot (alike_contents (by decide)) (alike_contents (by decide))
    exact still_bind hload fun node _ => ⟨.ok (some node), rfl⟩

theorem Orderly.retired (h : Orderly s) (hcert : s.contents certFilePrev = none) :
    s.contents keyFilePrev = none := by
  by_contra hkey
  exact h.previous hkey hcert

/-- A call that would change nothing alone only reads, as long as the slot files stay as they are. -/
theorem still_of_idle {c : Call B} (h : Orderly s) (hidle : ¬ c.Writes s) :
    ∃ r, Still (Alike s) r (c.program .unix) := by
  cases c with
  | loadOrGenerate m => exact still_bind (still_idle_load h hidle) fun node _ => ⟨.ok (.node node), rfl⟩
  | rotate m => exact still_bind (still_idle_rotate hidle) fun r _ => ⟨.ok (.rotated r), rfl⟩
  | loadPrevious => exact still_bind still_idle_loadPrevious fun node _ => ⟨.ok (.previous node), rfl⟩
  | retirePrevious =>
    have hcert : s.contents certFilePrev = none := not_not.mp hidle
    have hkey := h.retired hcert
    refine ⟨.ok .retired, still_retirePrevious (fun u hu => ?_) fun u hu => ?_⟩
    · rw [hu certFilePrev (by decide), hcert]
      rfl
    · rw [hu keyFilePrev (by decide), hkey]
      rfl

end Idle

theorem serial_of_idle {c c' : Call B} (h : Orderly s) (hc : ¬ c.Writes s) (hc' : ¬ c'.Writes s)
    {r r' : Except DigTlsError Reply}
    (hrun : Interleaved (posix String) (c.program .unix) (c'.program .unix) s r r' u) :
    Serial (posix String) visible (c.program .unix) (c'.program .unix) s r r' u := by
  obtain ⟨a, ha⟩ := still_of_idle h hc
  obtain ⟨b, hb⟩ := still_of_idle h hc'
  exact serial_of_steady faithful_visible (shown_alike s) hrun (ha.within (shown_alike s)) hb fun _ _ => rfl

end DigTls
