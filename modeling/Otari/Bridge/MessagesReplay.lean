import Otari.Bridge.Messages

/-!
# Bridge — MessagesReplay — a reply sent back as an assistant turn

What the input items of a replayed reply are, for the instance that made it and for any other
(`replay_items`).
-/

namespace Otari.Messages
open List

variable {Dict : Type} (library : Library Dict)

/-! ### Signatures -/

theorem dot_not_mem_instanceTag (name : Text) : '.' ∉ instanceTag library name := by
  have hdigit : ∀ n < 16, hexDigits.getD n '0' ≠ '.' := by decide
  intro hmem
  obtain ⟨byte, -, hbyte⟩ := mem_flatMap.mp (mem_of_mem_take hmem)
  have hlt := byte.isLt
  simp only [mem_cons, not_mem_nil, or_false] at hbyte
  rcases hbyte with hhigh | hlow
  · exact hdigit _ (by omega) hhigh.symm
  · exact hdigit _ (by omega) hlow.symm

theorem partitionDot_append {tag : Text} (h : '.' ∉ tag) (rest : Text) :
    partitionDot (tag ++ '.' :: rest) = (tag, rest) := by
  induction tag with
  | nil => rfl
  | cons c tag ih =>
    obtain ⟨hc, htag⟩ := not_or.mp (mt mem_cons.mpr h)
    have hne : c ≠ '.' := Ne.symm hc
    simpa [partitionDot, hne] using ih htag

theorem mintedReasoning_reasoningSignature (name served : Text) {encrypted : Text}
    (h : encrypted ≠ []) :
    mintedReasoning library (reasoningSignature library served encrypted) name =
      if instanceTag library served = instanceTag library name then some encrypted else none := by
  have hdrop : (reasoningSignature library served encrypted).drop reasoningSignaturePrefix.length =
      instanceTag library served ++ '.' :: encrypted := by
    rw [reasoningSignature, append_assoc, drop_left]
  rw [mintedReasoning, hdrop, partitionDot_append (dot_not_mem_instanceTag library served)]
  simp [h]

theorem isMinted_reasoningSignature (served encrypted : Text) :
    isMinted (reasoningSignature library served encrypted) = true := by
  rw [isMinted, List.isPrefixOf_iff_prefix, reasoningSignature, append_assoc]
  exact prefix_append ..

/-! ### What a replayed item gives -/

/-- What an item says once it is replayed: a text, or an input item of its own. -/
inductive Said where
  | text (text : Text)
  | item (item : InputItem)

def joinTexts (text : List Text) : List Said → List InputItem
  | [] => flush text
  | .text words :: said => joinTexts (text ++ [words]) said
  | .item item :: said => flush text ++ item :: joinTexts [] said

/-- What an output item comes back as: its encrypted content in full where `own`, and nothing of it
elsewhere; its texts; and its call, with the arguments written anew. -/
def replayed (own : Bool) : OutputItem → List Said
  | .reasoning _ summary encryptedContent =>
    match encryptedContent with
    | none | some [] => []
    | some encrypted =>
      let thinking := joinParagraphs summary
      if own then [.item (.reasoning none (if thinking = [] then [] else [thinking]) encrypted)]
      else []
  | .message content => content.flatMap fun part =>
    match part with
    | .outputText text => [.text text]
    | .refusal refusal => [.text refusal]
    | .other => []
  | .functionCall callId tool arguments =>
    [.item (.functionCall callId tool (library.dumps (toolInput library arguments)))]
  | .other => []

theorem reasoningSignature_ne (served encrypted : Text) :
    reasoningSignature library served encrypted ≠ [] := by
  simp [reasoningSignature]

theorem assistantItemsFrom_item (name served : Text) (item : OutputItem)
    {blocks : List (Block Dict)} {said : List Said}
    (hrest : ∀ text, assistantItemsFrom library name text blocks = joinTexts text said)
    (text : List Text) :
    assistantItemsFrom library name text (itemBlocks library served item ++ blocks) =
      joinTexts text (replayed library
        (instanceTag library served = instanceTag library name) item ++ said) := by
  cases item with
  | reasoning id summary encryptedContent =>
    -- a block without a signature made here is skipped, and the text around it is one
    have hskip : ∀ thinking, assistantItemsFrom library name text
        (.thinking thinking [] :: blocks) = joinTexts text said := by
      intro thinking
      rw [assistantItemsFrom]
      exact hrest text
    have hplain : signatureOf library served encryptedContent = [] →
        assistantItemsFrom library name text
          (itemBlocks library served (.reasoning id summary encryptedContent) ++ blocks) =
            joinTexts text said := by
      intro hnone
      simp only [itemBlocks, hnone]
      split
      · exact hskip _
      · exact hrest text
    match encryptedContent with
    | none => exact hplain rfl
    | some [] => exact hplain rfl
    | some (c :: encrypted) =>
      have hsigned : signatureOf library served (some (c :: encrypted)) =
          reasoningSignature library served (c :: encrypted) := rfl
      have hne := reasoningSignature_ne library served (c :: encrypted)
      simp only [itemBlocks, hsigned, hne, ne_eq, not_false_eq_true, or_true, if_true,
        singleton_append, assistantItemsFrom, isMinted_reasoningSignature,
        mintedReasoning_reasoningSignature library name served (cons_ne_nil c encrypted),
        replayed]
      by_cases htag : instanceTag library served = instanceTag library name
      · simp only [htag, if_true, decide_true, singleton_append, joinTexts, hrest]
      · simp only [htag, if_false, decide_false, Bool.false_eq_true, nil_append, hrest]
  | message content =>
    rw [itemBlocks, replayed]
    induction content generalizing text with
    | nil => exact hrest text
    | cons part content ih =>
      rw [flatMap_cons, flatMap_cons, append_assoc, append_assoc]
      cases part with
      | outputText words => exact ih (text ++ [words])
      | refusal words => exact ih (text ++ [words])
      | other => exact ih text
  | functionCall callId tool arguments =>
    simp only [itemBlocks, replayed, singleton_append, assistantItemsFrom, joinTexts, hrest]
  | other => exact hrest text

theorem assistantItems_messageFromResponse (served name : Text) (response : Response) :
    assistantItems library (messageFromResponse library served response).content name =
      joinTexts [] (response.output.flatMap (replayed library
        (instanceTag library served = instanceTag library name))) := by
  have hfrom : ∀ (output : List OutputItem) (text : List Text),
      assistantItemsFrom library name text (output.flatMap (itemBlocks library served)) =
        joinTexts text (output.flatMap (replayed library
          (instanceTag library served = instanceTag library name))) := by
    intro output
    induction output with
    | nil => exact fun text => rfl
    | cons item output ih =>
      intro text
      rw [flatMap_cons, flatMap_cons]
      exact assistantItemsFrom_item library name served item ih text
  exact hfrom response.output []

/-! ### The encrypted content -/

def OutputItem.encrypted : OutputItem → Option Text
  | .reasoning _ _ encryptedContent => encryptedContent.filter (· ≠ [])
  | _ => none

def InputItem.encrypted : InputItem → Option Text
  | .reasoning _ _ encryptedContent => some encryptedContent
  | _ => none

def Said.encrypted : Said → Option Text
  | .item entry => entry.encrypted
  | .text _ => none

theorem joinTexts_encrypted (text : List Text) (said : List Said) :
    (joinTexts text said).filterMap (·.encrypted) = said.filterMap (·.encrypted) := by
  have hflush : ∀ text : List Text, (flush text).filterMap (·.encrypted) = [] := by
    intro text
    rw [flush]
    split <;> rfl
  induction said generalizing text with
  | nil => exact hflush text
  | cons first said ih =>
    cases first with
    | text words => exact ih (text ++ [words])
    | item item =>
      rw [joinTexts, filterMap_append, hflush, nil_append, filterMap_cons,
        filterMap_cons, ih]
      rfl

theorem replayed_encrypted (own : Bool) (item : OutputItem) :
    (replayed library own item).filterMap (·.encrypted) =
      if own then item.encrypted.toList else [] := by
  cases item with
  | reasoning id summary encryptedContent =>
    match encryptedContent with
    | none | some [] => cases own <;> rfl
    | some (c :: encrypted) => cases own <;> rfl
  | message content =>
    have hnone : (replayed library own (.message content)).filterMap (·.encrypted) = [] := by
      rw [replayed]
      induction content with
      | nil => rfl
      | cons part content ih =>
        rw [flatMap_cons, filterMap_append, ih]
        cases part <;> rfl
    rw [hnone]
    cases own <;> rfl
  | functionCall callId tool arguments => cases own <;> rfl
  | other => cases own <;> rfl

/-- **A replayed reply**, read by any instance: the texts and the calls of the response in order, and
between them the encrypted content of each reasoning item that had one, if the instance has the tag
of the one that made the reply, or none of it. -/
theorem replay_items (served name : Text) (response : Response) :
    assistantItems library (messageFromResponse library served response).content name =
        joinTexts [] (response.output.flatMap (replayed library
          (instanceTag library served = instanceTag library name))) ∧
      (assistantItems library (messageFromResponse library served response).content name).filterMap
          (·.encrypted) =
        if instanceTag library served = instanceTag library name then
          response.output.filterMap (·.encrypted) else [] := by
  have hitems := assistantItems_messageFromResponse library served name response
  refine ⟨hitems, ?_⟩
  rw [hitems, joinTexts_encrypted, List.filterMap_flatMap]
  simp only [replayed_encrypted]
  by_cases htag : instanceTag library served = instanceTag library name
  · simp [htag, List.filterMap_eq_flatMap_toList]
  · simp [htag]

/-! ### An id is not carried -/

/-- A reasoning item comes back without its id. -/
theorem replayed_reasoning_drops_id :
    assistantItems sampleLibrary (messageFromResponse sampleLibrary ['i']
        (sampleResponse [.reasoning ['r', 's'] [] (some ['e'])])).content ['i'] =
      [.reasoning none [] ['e']] ∧
    assistantItems sampleLibrary (messageFromResponse sampleLibrary ['i']
        (sampleResponse [.reasoning ['r', 's'] [] (some ['e'])])).content ['i'] ≠
      [.reasoning (some ['r', 's']) [] ['e']] := by
  decide

end Otari.Messages
