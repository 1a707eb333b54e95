import MerlionTsdb.Block.Damage
import MerlionTsdb.Querier.Merge

/-!
# Queries over damaged blocks

A query that runs into damage is refused as a whole: no block is left out of an answer.
-/

namespace MerlionTsdb.Querier

open Block Chunkenc Encoding Head IndexSort Model

/-- A block, and the block in its place: the same, or what is opened of its directory after damage, and was
asked things since. -/
inductive Damaged (text : JsonText) : Block → Block → Prop
  | spared (blk : Block) : Damaged text blk blk
  | opened {dir dir' : BlockDir} {series : List SeriesInput} {l : BlockLayout} {blk blk' : Block}
      (hproduced : Produced text dir series) (hopen : openDir text (some dir) = .ok blk)
      (hdescribes : l.Describes dir) (hleft : l.LeftIn dir') (hmeta : dir'.metaJson = dir.metaJson)
      (hopen' : openDir text (some dir') = .ok blk') (history : List ChunkCall) :
      Damaged text blk (asked blk' history)

namespace Damaged

variable {text : JsonText} {blk blk' : Block}

theorem blockMeta_eq (h : Damaged text blk blk') : blk'.blockMeta = blk.blockMeta := by
  cases h with
  | spared => rfl
  | opened _ hopen hdescribes hleft hmeta hopen' history =>
    rcases openDir_worn hdescribes hleft hmeta hopen with hrefused | ⟨_, hok, hsame, -⟩
    · rw [hopen'] at hrefused
      cases hrefused
    · rw [hopen'] at hok
      cases hok
      exact hsame

theorem select (h : Damaged text blk blk') (matchers : List Matcher) (mint maxt : Int64) :
    OrError malformed (blk'.select matchers mint maxt) (blk.select matchers mint maxt) := by
  cases h with
  | spared => exact .refl _
  | opened _ hopen hdescribes hleft hmeta hopen' history =>
    rcases openDir_worn hdescribes hleft hmeta hopen with hrefused | ⟨_, hok, -, hqueries⟩
    · rw [hopen'] at hrefused
      cases hrefused
    · rw [hopen'] at hok
      cases hok
      exact hqueries history matchers mint maxt

/-- The range is in the metadata, which no damage reaches. -/
theorem outside_eq (h : Damaged text blk blk') (mint maxt : Int64) :
    outside blk' mint maxt = outside blk mint maxt := by
  rw [outside, outside, h.blockMeta_eq]

end Damaged

/-- The loop over the blocks, some of them damaged. -/
theorem addBlocks_damaged {text : JsonText} {blocks blocks' : List (Option Block)}
    (h : List.Forall₂ (Option.Rel (Damaged text)) blocks blocks') (matchers : List Matcher)
    (mint maxt : Int64) (bucket : Bucket) :
    OrError malformed (addBlocks matchers mint maxt bucket blocks')
      (addBlocks matchers mint maxt bucket blocks) := by
  induction h generalizing bucket with
  | nil => exact .refl _
  | cons hblk _ ih =>
    cases hblk with
    | none => exact ih bucket
    | some hdamaged =>
      rw [addBlocks, addBlocks, hdamaged.outside_eq]
      split
      · exact ih bucket
      · exact (hdamaged.select matchers mint maxt).bind fun perBlock _ ↦ ih _

/-- Whichever blocks of a querier are damaged, and whatever they were asked before, a query has the answer
over the blocks before the damage or is refused. -/
theorem select_whole_or_refused {W : Type} (q : Querier W) {text : JsonText} {blocks : List (Option Block)}
    (h : List.Forall₂ (Option.Rel (Damaged text)) q.blocks blocks)
    (hashOrder : Buckets.HashOrder (Labels × List (XORChunk × ChunkMeta))) (sorter : Sorter Int64)
    (matchers : List Matcher) (mint maxt : Int64) :
    { q with blocks := blocks }.select hashOrder sorter matchers mint maxt =
        q.select hashOrder sorter matchers mint maxt ∨
      { q with blocks := blocks }.select hashOrder sorter matchers mint maxt = .error malformed := by
  unfold Querier.select
  split
  · exact Or.inl rfl
  · exact (addBlocks_damaged h matchers mint maxt []).bind_same _

/-- A damaged block, a null pointer, and a head: the query is refused, though the head could answer. -/
theorem select_whole_or_refused_header :
    ∃ q q' : Querier (List Bytes), q'.heads = q.heads ∧ q.heads.length = 1 ∧
      q'.select (.inserted _) (.stable Int64) [narrowMatcher] 0 5 = .error malformed ∧
      (q'.select (.inserted _) (.stable Int64) [narrowMatcher] 0 5 =
          q.select (.inserted _) (.stable Int64) [narrowMatcher] 0 5 ∨
        q'.select (.inserted _) (.stable Int64) [narrowMatcher] 0 5 = .error malformed) := by
  obtain ⟨dir, chunks, blk, blk', l, hproduced, hopen, hdescribes, hleft, hopen', hmeta, hselect⟩ :=
    exists_cleared
  obtain ⟨hd, -⟩ := exists_filled 1
  let q : Querier (List Bytes) := { blocks := [some blk, none], heads := [some hd] }
  have hdamaged := Damaged.opened hproduced hopen hdescribes hleft rfl hopen' []
  have hall := select_whole_or_refused q (.cons (.some hdamaged) (.cons .none .nil)) (.inserted _)
    (.stable Int64) [narrowMatcher] 0 5
  refine ⟨q, { q with blocks := [some (asked blk' []), none] }, rfl, rfl, ?_, hall⟩
  -- The query meets the range of the block.
  have hout : outside (asked blk' []) 0 5 = false := by
    show outside { blk' with chunks := _ } 0 5 = false
    unfold outside
    rw [hmeta]
    decide
  unfold Querier.select
  rw [if_neg (by decide)]
  dsimp only
  rw [addBlocks, hout, if_neg Bool.false_ne_true, hselect]
  rfl

end MerlionTsdb.Querier
