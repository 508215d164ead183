import Solcompat.Descriptor.Rules

/-!
# Mappings of `/dev/zero`

An anonymous mapping is made with a descriptor of `/dev/zero`, which is closed again behind
`mmap`, whether that worked or not.
-/

namespace Solcompat.Descriptor

open Lib Handles

variable {before : Handles ℤ Entry} {r : List Call} {p : Process} {post : Option ℤ → Process → Prop}

theorem sound_mmap {R : Type} {post : R → Process → Prop} {held : ℤ → Option Entry}
    {mapping : Mapping} {f : Option ℤ → Code R} (h : Has before held r p)
    (hflags : hasFlag mapping.flags mapAnonymous = false)
    (hnext : ∀ x p', Has before held r p' → (f x).Sound surroundings post p') :
    (perform (.mmap mapping) >>= f).Sound surroundings post p :=
  sound_still h (fun _ _ => hflags) (fun _ _ _ hx => hx) hnext

theorem hasFlag_clear (flags bit : BitVec 32) : hasFlag (flags &&& ~~~ bit) bit = false := by
  have hclear : flags &&& ~~~ bit &&& bit = 0 := by
    ext i hi
    simp
  rw [hasFlag, hclear]
  rfl

theorem sound_solcompatMmapAnon (addr : ℤ) (length : ℕ) (prot flags : BitVec 32)
    (h : Has before nothing r p) (hpost : ∀ x p', Has before nothing r p' → post x p') :
    (solcompatMmapAnon addr length prot flags).Sound surroundings post p := by
  refine sound_new h (fun p₁ h _ => hpost none p₁ h) fun fd _ p₁ _ hfree hfresh h => ?_
  refine sound_mmap h (hasFlag_clear flags mapAnonymous) fun result p₂ h => ?_
  refine sound_close h (Function.update_self ..) hfresh fun p₃ h => ?_
  rw [update_put_remove hfree] at h
  exact hpost result p₃ h

/-- No mapping leaves a descriptor open or disturbs one of another thread, and the system never
gets the flag that it does not know. -/
theorem doMmapAnonFixup_descriptors (table : ℤ → Option Entry) (kept : Set ℤ)
    (mapping : Mapping) :
    (doMmapAnonFixup mapping).Sound surroundings
      (fun _ p => Has (Process.start table kept).fds nothing [] p)
      (Process.start table kept) := by
  unfold doMmapAnonFixup
  split_ifs with hflag
  · exact sound_solcompatMmapAnon _ _ _ _ (has_start table kept) fun _ _ h => h
  · rw [Bool.not_eq_true] at hflag
    exact sound_mmap (f := .done) (has_start table kept) hflag fun _ _ h => h

end Solcompat.Descriptor
