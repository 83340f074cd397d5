import Xv6.Mkfs.Reader

/-! The kernel starts on an image of `mkfs` with the books of its file system in order. -/
namespace Xv6
namespace Mkfs

open Fs (Sized Booked InRegion MAXFILE dinode inUse)
open Names (DESIZE)

variable {t : Host} {files : List HostFile} {s u : Fs.State}

/-- Block maps have no place past `MAXFILE`, so a file without holes is not too large. -/
theorem WellFormed.sized (hw : WellFormed files t) {i : ℕ} (hi : 1 ≤ i) (hn : i < t.freeinode) :
    Sized t.img (dinode sb t.img i) := by
  refine ⟨?_,hw.mapped i hi hn⟩
  by_contra hlt
  have hk : MAXFILE < blocks (dinode sb t.img i).size := by
    simp only [blocks,BSIZE] at *
    omega
  exact hw.mapped i hi hn MAXFILE hk rfl

theorem Final.owned (hf : Final t (contentOf files)) (hw : WellFormed files t) :
    Fs.Owned sb t.img (dinode sb t.img) := by
  have hbit {b : ℕ} (hb : b < sb.size) : inUse sb t.img b = true ↔ b < t.freeblock :=
    hf.inUse_iff (sb_layout.bblock_lt hb)
  refine ⟨⟨fun b hb => ?_,hf.laid.books.accounts.congr fun b _ => ?_⟩,fun i hi ht => ?_⟩
  · have hlt : b < sb.datastart := hb
    exact (hbit (hlt.trans_le sb_layout.data)).mpr (hlt.trans_le hf.laid.books.ge)
  · have hle : t.freeblock ≤ sb.size := hf.le
    constructor
    · rintro ⟨hb,hu⟩
      exact ⟨hb.1,(hbit hb.2).mp hu⟩
    · rintro ⟨hlo,hhi⟩
      exact ⟨⟨hlo,hhi.trans_le hle⟩,(hbit (hhi.trans_le hle)).mpr hhi⟩
  · refine hw.sized hi.1 (not_le.mp fun hge => ht ?_)
    exact hf.laid.free i hge hi.2

theorem Final.kernel (hf : Final t (contentOf files)) (hw : WellFormed files t)
    (hb : Booted t.img s) : Fs.WellFormed sb s := by
  have hno (i : Fin Fs.NINODE) : ¬ 0 < (s.itable i).ref := by simp [(hb.table i).1]
  refine ⟨?_,⟨fun i hi => absurd hi (hno i),fun i _ hi => absurd hi (hno i)⟩,
    fun i hi => absurd hi (hno i)⟩
  rw [hb.view]
  exact hf.owned hw

end Mkfs
end Xv6
