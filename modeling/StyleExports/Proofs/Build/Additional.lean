import StyleExports.Build.Plugin
import StyleExports.Proofs.Tree.Merge

namespace StyleExports

open StyleExports.Tree

/-- A tree without repeated names is merged into any other path by path; merged again, or into the empty
tree, it brings nothing but itself; and as additional data it is part of every extract. -/
theorem extracted_additional {b : Tree} (hb : b.Distinct) :
    (∀ a : Tree, Merged a b (a.merge b) ∧ a.merge .empty = a) ∧ Tree.empty.merge b = b ∧
      ∀ (o : Plugin) (id css : String) (x : BuildContext) (e : Extraction),
        o.options.additional = b → (o.extract id css x).1 = some e →
          ∀ p v, b.getPath? p = some (.leaf v) → e.extract.tree.getPath? p = some (.leaf v) := by
  refine ⟨fun a => ⟨merged_merge hb a, merge_empty a⟩, empty_merge hb, ?_⟩
  rintro o id css x e rfl he p v hv
  unfold Plugin.extract at he
  split at he
  · obtain rfl := Option.some.inj he
    exact ((merged_merge hb (Extraction.ofText o.options.casing css.toList).extract.tree).leaf p v).mpr
      (.inl hv)
  · simp at he

/-- Two colours as additional data, one of them over one that the stylesheet exports. -/
theorem extracted_additional_nav :
    let own := node "nav" (leaf "bgColor" "#000" (leaf "color" "#111" .empty)) .empty
    let b := node "nav" (leaf "navBgColor" "#fff" (leaf "color" "#222" .empty)) .empty
    let o : Plugin := ⟨{ Options.default with additional := b }, "css-post"⟩
    let css := ":export nav \x7b bgColor: #000; color: #111 \x7d"
    b.Distinct ∧ Merged own b (own.merge b) ∧ Tree.empty.merge b = b ∧
      (o.extract "a.css?export" css .fresh).1 = some (o.extraction css) ∧
      (o.extraction css).extract.tree.getPath? ["nav", "color"] = some (.leaf "#222") := by
  intro own b o css
  have distinct : b.Distinct := by decide
  have scope : o.inScope "a.css?export" = true := by decide +kernel
  have phase : (o.extract "a.css?export" css .fresh).1 = some (o.extraction css) := by
    rw [Plugin.extract, if_pos scope]
  obtain ⟨merged, only, extracted⟩ := extracted_additional distinct
  exact ⟨distinct, (merged own).1, only, phase,
    extracted o "a.css?export" css .fresh _ rfl phase ["nav", "color"] "#222" (by decide)⟩

end StyleExports
