import DigTls.Posix.Permissions

/-! # What shows of a directory, and failures that do not show

Someone who lists a directory sees its mode and the contents and modes of its files. A look that
fails leaves all of that as it is, and so does the making of a path that does not get as far as
the directory.
-/
namespace PosixVolume
open EffectPrograms

namespace Volume
variable {ν : Type} {s t : Volume ν}

/-- The mode of the directory, and under each name the contents and the mode of the file, if there
is one. There is nothing to list without the directory. -/
def listing (s : Volume ν) : Option (Mode × (ν → Option (Bytes × Mode))) :=
  if s.present then
    some (s.dirMode, fun path => (s.entry path).map fun i => ((s.inode i).data, (s.inode i).mode))
  else none

/-- The failures when no call fails that writes, renames, syncs, sets permissions or deletes. Looks
may fail, and so may the making of the path as long as the directory is not made. -/
structure MildFault (op : Op ν) (s : Volume ν) (r : op.Res) (t : Volume ν) : Prop where
  fault : VeiledFault Set.univ op s r t
  spared : op.Reads ∨ op = .createDirAll
  unmade : t.present = s.present

theorem MildFault.listing {op : Op ν} {r : op.Res} (h : MildFault op s r t) : t.listing = s.listing := by
  have hleft := h.fault.left
  have hmade := h.unmade
  cases hleft with
  | unchanged => rfl
  | wrote => simpa [Op.Reads] using h.spared
  | dug k _ _ =>
    cases hp : s.present with
    | true => simp [makePath, hp]
    | false =>
      rw [hp] at hmade
      simp [Volume.listing, hp, hmade]

end Volume

def obliging (ν : Type) [DecidableEq ν] : Machine (Op ν) Op.Res (Volume ν) :=
  { posix ν with fault := Volume.MildFault }

section Programs
variable {ν : Type} [DecidableEq ν] {ε α : Type} {s : Volume ν} {p : Program (Op ν) Op.Res ε α}

theorem exec_obliging (p : Program (Op ν) Op.Res ε α) (s : Volume ν) :
    exec (obliging ν) p s = exec (posix ν) p s := by
  have hrun : (obliging ν).run = (posix ν).run := rfl
  exact exec_congr (posix ν) hrun p s

theorem ends_looks {A : α → Prop} (hp : p.Forall Op.Reads A) :
    Ends (obliging ν) p s (fun a t => t = s ∧ A a) (· = s) := by
  refine Keeps.ends (I := (· = s)) (keeps_forall ?_ ?_ ?_ hp) rfl
  · rintro op t hop rfl
    exact leads_reads hop (Or.inl rfl)
  · rintro op t r u hop hf rfl
    exact leads_reads hop (Or.inr (Or.inl ⟨r, hf.fault⟩))
  · rintro op t u hop ht rfl
    exact leads_reads hop (Or.inr (Or.inr ht))

end Programs
end PosixVolume
