import Qsbit.Image.Access

/-!
# Code that is not written

A segment can be writable and executable at once, as that of a raw image is. Where no segment of
an image is, what the program stores never changes what it fetches.

## Main definitions

* `ProgramImage.Separated` — no segment is writable and executable.
* `ProgramImage.fetch_of_write` — a store does not change a fetch.
-/
namespace Qsbit
namespace ProgramImage

/-- No segment is writable and executable. -/
def Separated (image : ProgramImage) : Prop :=
  ∀ s ∈ image.segments, ¬ (s.writable = true ∧ s.executable = true)

instance (image : ProgramImage) : Decidable image.Separated :=
  inferInstanceAs (Decidable (∀ s ∈ image.segments, _))

variable {image image' : ProgramImage} {address width value : ℕ}

theorem Separated.write (h : image.Separated) (hwrite : image.write address width value = .ok image') :
    image'.Separated := by
  obtain ⟨-, hsame, -, -⟩ := write_eq_ok hwrite
  rw [hsame]
  exact h

/-- A fetch does not meet the bytes of a store. -/
theorem Separated.apart (h : image.Separated) {pc : ℕ} (hstore : image.Permits address width true false)
    (hfetch : image.Permits pc 4 false true) {k : ℕ} (hk : k < 4) :
    ¬ (address ≤ pc + k ∧ pc + k < address + width) := by
  intro hcovered
  obtain ⟨s, hs, hexecutable, hmeets⟩ := hfetch.fetched rfl
  obtain ⟨hbelow, habove⟩ := hfetch.contained s hs hmeets
  have hmet : s.Meets address width := ⟨by omega, by omega⟩
  exact h s hs ⟨hstore.permitted s hs hmet, hexecutable⟩

/-- What the program stores does not change what it fetches. -/
theorem fetch_of_write (h : image.Separated) (hwrite : image.write address width value = .ok image')
    (pc : ℕ) : image'.read pc 4 true = image.read pc 4 true := by
  obtain ⟨hstore, hsame, hlength, hbytes⟩ := write_eq_ok hwrite
  have hoffset : image'.offset pc 4 false true = image.offset pc 4 false true := by
    rw [hsame, offset, offset, hlength]
  cases hread : image.read pc 4 true with
  | error fault =>
    simp only [read, Except.bind_eq_error_iff, Except.pure_ne_error, and_false, exists_false,
      or_false] at hread
    rw [read, hoffset, hread]
    rfl
  | ok v =>
    obtain ⟨hfetch, hv⟩ := read_eq_ok hread
    obtain ⟨v', hread'⟩ : ∃ v', image'.read pc 4 true = .ok v' := by
      simp only [read, Except.bind_eq_ok_iff, Except.pure_eq_ok_iff] at hread ⊢
      obtain ⟨p, hp, -⟩ := hread
      exact ⟨_, p, hoffset.trans hp, rfl⟩
    have hv' := (read_eq_ok hread').2
    have hinside := hfetch.inside
    have hall : (List.range 4).map (fun k => image'.byte (pc + k)) =
        (List.range 4).map fun k => image.byte (pc + k) := by
      refine List.map_congr_left fun k hk => ?_
      rw [hbytes _ (by omega), if_neg (h.apart hstore hfetch (List.mem_range.1 hk))]
    rw [hread', hv', hall, ← hv]

end ProgramImage
end Qsbit
