import DigTls.Store.Machine
import DigTls.Store.Retirement

/-! # First runs that are cut short

A first run writes the certificate before the key, and mints only while one of them is missing.
So whatever interrupted attempts have left behind, a key file that is there came last and
matches the certificate next to it.
-/
namespace DigTls
open EffectPrograms PosixVolume Volume
variable {B : Backend} {s t : Volume String} {ls : List (Volume String × Event B)}

namespace Event

def Loads : Event B → Prop
  | .call (.loadOrGenerate _) _ _ => True
  | _ => False

def minting : Event B → Option (NodeCert.Minting B)
  | .call c _ _ => c.minting
  | .powerLoss => none

def Answers (e : Event B) (x : NodeCert) : Prop :=
  ∃ c trace r, e = .call c trace (some (.ok r)) ∧ r.current = some x

end Event

def Minted (ls : List (Volume String × Event B)) (x : NodeCert) : Prop :=
  ∃ e ∈ ls, ∃ m, e.2.minting = some m ∧ NodeCert.generateSigned B m = .ok x

/-- Either there is no key yet, and no call has answered, or the current slot is whole: it holds
one minted identity, and all answers are that one. -/
def OneIdentity (ls : List (Volume String × Event B)) (s : Volume String) : Prop :=
  s.contents keyFile = none ∧ (∀ e ∈ ls, ∀ x, ¬ e.2.Answers x) ∨
  ∃ x, Holds B s currentSlot x ∧ Minted ls x ∧ ∀ e ∈ ls, ∀ y, e.2.Answers y → y = x

theorem Minted.snoc {x : NodeCert} (h : Minted ls x) (l : Volume String × Event B) : Minted (ls ++ [l]) x := by
  obtain ⟨e, he, hm⟩ := h
  exact ⟨e, List.mem_append_left _ he, hm⟩

theorem answers_call {c : Call B} {trace : List (Op String)} {o : Option (Except DigTlsError Reply)}
    {x : NodeCert} (h : (Event.call c trace o).Answers x) : ∃ r, o = some (.ok r) ∧ r.current = some x := by
  obtain ⟨_, _, r, heq, hr⟩ := h
  cases heq
  exact ⟨r, rfl, hr⟩

theorem OneIdentity.step (hread : KeysReadBack B) (hs : s.Wf) (h : OneIdentity ls s) {e : Event B}
    (hstep : Step noLoss s e t) (he : e.Loads) : OneIdentity (ls ++ [(s, e)]) t := by
  obtain ⟨c, trace, o, ds, rfl, hleaves⟩ := step_leaves hs hstep
  cases hleaves with
  | refused | rotated | previous | retired => exact he.elim
  | @loaded m _ _ _ same answer =>
    rcases h with ⟨hkey, hnone⟩ | ⟨x, hx, hminted, hall⟩
    · refine Or.inl ⟨(same keyFile (by decide)).trans hkey, fun l hl y hy => ?_⟩
      rcases List.mem_append.mp hl with hl | hl
      · exact hnone l hl y hy
      · rw [List.mem_singleton.mp hl] at hy
        obtain ⟨r, hr, _⟩ := answers_call hy
        obtain ⟨node, _, hnode⟩ := answer r hr
        exact hnode.not_vacant (Or.inr hkey)
    · refine Or.inr ⟨x, Holds.of_same (by decide) same hx, hminted.snoc _, fun l hl y hy => ?_⟩
      rcases List.mem_append.mp hl with hl | hl
      · exact hall l hl y hy
      · rw [List.mem_singleton.mp hl] at hy
        obtain ⟨r, hr, hcur⟩ := answers_call hy
        obtain ⟨node, rfl, hnode⟩ := answer r hr
        cases hcur
        exact hnode.unique hx
  | @minted m x k _ _ _ vacant mint bound stage _ answer =>
    rcases h with ⟨hkey, hnone⟩ | ⟨y, hy, _, _⟩
    · by_cases hk : k = 2
      · subst hk
        have hx : Holds B t currentSlot x := ⟨stage.cert, stage.key, NodeCert.fromPem_generated hread mint⟩
        refine Or.inr ⟨x, hx, ⟨(s, .call (.loadOrGenerate m) trace o), by simp, m, rfl, mint⟩, fun l hl y hy => ?_⟩
        rcases List.mem_append.mp hl with hl | hl
        · exact absurd hy (hnone l hl y)
        · rw [List.mem_singleton.mp hl] at hy
          obtain ⟨r, hr, hcur⟩ := answers_call hy
          obtain ⟨rfl, _⟩ := answer r hr
          exact (Option.some.inj hcur).symm
      · refine Or.inl ⟨?_, fun l hl y hy => ?_⟩
        · rw [stage.key, if_neg (by omega), hkey]
        · rcases List.mem_append.mp hl with hl | hl
          · exact hnone l hl y hy
          · rw [List.mem_singleton.mp hl] at hy
            obtain ⟨r, hr, _⟩ := answers_call hy
            exact hk (answer r hr).2
    · exact absurd vacant hy.not_vacant

theorem run_oneIdentity (hread : KeysReadBack B) (hvacant : Vacant s) (hrun : Run B noLoss s ls t)
    (hloads : ∀ e ∈ ls, e.2.Loads) : OneIdentity ls t := by
  induction hrun with
  | start => exact Or.inl ⟨hvacant.contents _, by simp⟩
  | @snoc t u ls e before last ih =>
    have ht := ih fun l hl => hloads l (List.mem_append_left _ hl)
    exact ht.step hread (run_wf hvacant.wf before) last (hloads (t, e) (by simp))

/-- After any loads into an empty or missing directory, cut short or not, a load that runs through
succeeds as far as its own minting does; it returns what any earlier load has returned; and what it
returns was minted as a whole, by it or by an earlier load. -/
theorem first_run_crash_consistent (hread : KeysReadBack B) (hvacant : Vacant s) (hrun : Run B noLoss s ls t)
    (hloads : ∀ e ∈ ls, e.2.Loads) (m : NodeCert.Minting B) :
    ((∃ x, NodeCert.generateSigned B m = .ok x) →
      ∃ x, (exec (posix String) (loadOrGenerate .unix m) t).1 = .ok x) ∧
    (∀ e ∈ ls, ∀ x, e.2.Answers x → (exec (posix String) (loadOrGenerate .unix m) t).1 = .ok x) ∧
    (∀ x, (exec (posix String) (loadOrGenerate .unix m) t).1 = .ok x →
      Minted ls x ∨ NodeCert.generateSigned B m = .ok x) := by
  rcases run_oneIdentity hread hvacant hrun hloads with ⟨hkey, hnone⟩ | ⟨x, hx, hminted, hall⟩
  · rw [load_vacant_answer m (Or.inr hkey)]
    exact ⟨id, fun e he x hx => absurd hx (hnone e he x), fun _ => Or.inr⟩
  · have hload : (exec (posix String) (loadOrGenerate .unix m) t).1 = .ok x := by rw [exec_loadOrGenerate hx]
    refine ⟨fun _ => ⟨x, hload⟩, fun e he y hy => ?_, fun y hy => Or.inl ?_⟩
    · rw [hall e he y hy]
      exact hload
    · rw [hload] at hy
      cases hy
      exact hminted

/-- A first load that was cut when the certificate was in place and the key was not: the next one
succeeds. -/
theorem first_run_crash_consistent_torn : ∃ trace t,
    cut 8 (.loadOrGenerate (toyMint 1 7)) emptyDir = some (trace, t) ∧
    (t.contents certFile).isSome = true ∧ t.contents keyFile = none ∧
    ∃ x, (exec (posix String) (loadOrGenerate .unix (toyMint 2 8)) t).1 = .ok x := by
  have hstate : (cut 8 (.loadOrGenerate (toyMint 1 7)) emptyDir).map (fun r =>
      ((r.2.contents certFile).isSome, r.2.contents keyFile)) = some (true, none) := by decide +kernel
  obtain ⟨⟨trace, t⟩, hcut, hfiles⟩ := Option.map_eq_some_iff.mp hstate
  obtain ⟨hcert, hkey⟩ := Prod.mk.inj hfiles
  have hmint : ∃ x, NodeCert.generateSigned toyBackend (toyMint 2 8) = .ok x :=
    ⟨toyNodeTwo, by decide +kernel⟩
  have hrun := first_run_crash_consistent toy_keysReadBack emptyDir_vacant (.single (step_cut hcut))
    (by simp [Event.Loads]) (toyMint 2 8)
  exact ⟨trace, t, hcut, hcert, hkey, hrun.1 hmint⟩

end DigTls
