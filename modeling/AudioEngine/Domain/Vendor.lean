import Mathlib.Data.List.Infix
import AudioEngine.Lib.PyStr
import AudioEngine.Lib.Sha256

/-!
# AudioEngine.Domain.Vendor

The pure functions the handlers are built on: the splitter `split_blocks` (`core/domain/text.py`),
the hasher `content_hash` (`core/domain/hash.py`), the simulated vendors `simulate_parse` and
`tts_fake_audio` (`core/domain/vendor.py`), and the settings they and the handlers read
(`core/config.py`).

`tts_fake_audio` depends on its text through the content hash alone (`ttsFakeAudio_eq`). That is
what makes a content-addressed audio object well defined whatever the hash function does.
-/

namespace AudioEngine

open PyStr

/-! ## `split_blocks` -/

/-- The loop of `split_blocks`, with its two accumulators. -/
def splitBlocksLoop (cs : Charset) (blocks current : List (List Char)) :
    List (List Char) → List (List Char)
  | [] =>
    if current.isEmpty then blocks else blocks ++ [strip cs (['\n'].intercalate current)]
  | line :: rest =>
    if !(strip cs line).isEmpty then splitBlocksLoop cs blocks (current ++ [line]) rest
    else if !current.isEmpty then
      splitBlocksLoop cs (blocks ++ [strip cs (['\n'].intercalate current)]) [] rest
    else splitBlocksLoop cs blocks current rest

/-- `split_blocks` over an arbitrary choice of whitespace and line boundaries. -/
def splitBlocksWith (cs : Charset) (manuscript : List Char) : List (List Char) :=
  splitBlocksLoop cs [] [] (splitlines cs manuscript)

/-- `split_blocks(manuscript)`. -/
def splitBlocks (manuscript : String) : List String :=
  (splitBlocksWith python manuscript.toList).map String.ofList

/-! ## Hash and vendors -/

/-- `content_hash(text)`: the hex digest of SHA-256 over the UTF-8 bytes. -/
@[irreducible] def contentHash (text : String) : String := Sha256.hexdigest text.toUTF8

/-- The fake audio of any text with content hash `h`. -/
def audioOf (h : String) : ByteArray := "FAKE_AUDIO:".toUTF8 ++ h.toUTF8

/-- `tts_fake_audio(text)`. -/
def ttsFakeAudio (text : String) : ByteArray := "FAKE_AUDIO:".toUTF8 ++ (contentHash text).toUTF8

theorem ttsFakeAudio_eq (text : String) : ttsFakeAudio text = audioOf (contentHash text) := rfl

def poisonMarker : String := "__POISON__"

/-- `VendorError` with the message it is raised with. -/
structure VendorError where
  message : String
deriving DecidableEq, Repr

/-- `simulate_parse(text)`; `draw` is the outcome of `r.random() < failure_rate`. -/
def simulateParse (text : String) (draw : Bool) : Except VendorError (List String) :=
  if poisonMarker.toList <:+: text.toList then
    .error ⟨"poison manuscript: fails every attempt (exhausts retries -> DLQ)"⟩
  else if draw then .error ⟨"simulated parse vendor 500 (transient)"⟩
  else .ok (splitBlocks text)

theorem simulateParse_ok {text : String} {draw : Bool} {blocks : List String}
    (h : simulateParse text draw = .ok blocks) : blocks = splitBlocks text := by
  unfold simulateParse at h
  split at h
  · cases h
  · split at h
    · cases h
    · cases h; rfl

/-! ## Settings -/

/-- The settings the modelled code reads, with their defaults. -/
structure Settings where
  maxRetries : Int := 3
  retryDelaysRaw : String := "1,4,16"
  maxBlocks : Int := 10000

/-- `Settings.retry_delays`; `none` is the `ValueError` of a part that is no integer. -/
def Settings.retryDelays (cfg : Settings) : Option (List Int) :=
  (((split ',' cfg.retryDelaysRaw.toList).map (strip python)).filter (!·.isEmpty)).mapM parseInt

example : ({} : Settings).retryDelays = some [1, 4, 16] := by decide +kernel

/-- Python's `l[:k]`. -/
def sliceTo {α : Type} (k : Int) (l : List α) : List α :=
  if 0 ≤ k then l.take k.toNat else l.take (l.length - (-k).toNat)

/-- The cap of `handle_parse`: `if len(blocks) > MAX_BLOCKS: blocks = blocks[:MAX_BLOCKS]`. -/
def capBlocks (cfg : Settings) (blocks : List String) : List String :=
  if (blocks.length : Int) > cfg.maxBlocks then sliceTo cfg.maxBlocks blocks else blocks

/-- The cap is the slice, also where the length test makes it a no-op. -/
theorem capBlocks_eq (cfg : Settings) (blocks : List String) :
    capBlocks cfg blocks = sliceTo cfg.maxBlocks blocks := by
  unfold capBlocks
  split
  · rfl
  · rename_i h
    unfold sliceTo
    rw [if_pos (by omega), List.take_of_length_le (by omega)]

/-- The blocks a manuscript is fanned out into. -/
def blocksOf (cfg : Settings) (manuscript : String) : List String :=
  capBlocks cfg (splitBlocks manuscript)

/-- The cap only drops blocks at the end. -/
theorem blocksOf_prefix (cfg : Settings) (manuscript : String) :
    blocksOf cfg manuscript <+: splitBlocks manuscript := by
  rw [blocksOf, capBlocks_eq, sliceTo]
  split
  · exact List.take_prefix _ _
  · exact List.take_prefix _ _

theorem blocksOf_getElem? {cfg : Settings} {manuscript block : String} {i : Nat}
    (h : (blocksOf cfg manuscript)[i]? = some block) : (splitBlocks manuscript)[i]? = some block := by
  obtain ⟨rest, hr⟩ := blocksOf_prefix cfg manuscript
  rw [← hr, List.getElem?_append_left (List.getElem?_eq_some_iff.mp h).1]
  exact h

end AudioEngine
