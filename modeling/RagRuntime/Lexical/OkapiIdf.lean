import Mathlib.Analysis.SpecialFunctions.Log.Basic
import RagRuntime.Lexical.Bm25Paths

/-! The scores of an index with the logarithm of the source, over the real numbers. -/
namespace RagRuntime.Lexical
open RagRuntime.Base RagRuntime.Core

namespace Bm25Index

/-- The smoothed idf of a term that `n` of `N` documents have. -/
noncomputable def okapiIdf (N n : ℕ) : ℝ := Real.log (1 + (N - n + 1/2)/(n + 1/2))

lemma okapiIdf_pos : PositiveIdf okapiIdf := by
  intro N n hle
  have hcast : (n : ℝ) ≤ N := by exact_mod_cast hle
  have hnum : (0 : ℝ) < N - n + 1/2 := by linarith
  have hden : (0 : ℝ) < n + 1/2 := by positivity
  apply Real.log_pos
  have hquotient := div_pos hnum hden
  linarith

/-- What is said of a search: the scores of the paths are those of the single documents, each path
reports the matching documents once, and the answer has the best of them. -/
structure PathsAgree (index : Bm25Index) (docs : List (ℕ × Bytes)) (query : Bytes) : Prop where
  score : ∀ path : Path, path.Available index → ∀ d,
    index.pathScore okapiIdf (index.analysis.tokenize query) path d =
      index.scoreDoc okapiIdf (index.analysis.tokenize query) d
  nodup : ∀ path : Path, path.Available index →
    ((index.reported okapiIdf (index.analysis.tokenize query) path).map Prod.fst).Nodup
  reported : ∀ path : Path, path.Available index → ∀ d s,
    (d,s) ∈ index.reported okapiIdf (index.analysis.tokenize query) path ↔
      Matches index.analysis.tokenize docs (index.analysis.tokenize query) d ∧
        s = index.scoreDoc okapiIdf (index.analysis.tokenize query) d
  selected : index.path.Available index
  answered : ∀ k, docs.length ≤ k → ∀ d s, (d,s) ∈ index.ranked okapiIdf query k ↔
    Matches index.analysis.tokenize docs (index.analysis.tokenize query) d ∧
      s = index.scoreDoc okapiIdf (index.analysis.tokenize query) d

end Bm25Index
end RagRuntime.Lexical
