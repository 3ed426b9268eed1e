import CommentProse.Analysis
import Mathlib.Data.List.Sigma

/-! # Arranging lines by section

The sections of an outline are its description and the lines of each tag. Arranging lines commutes
with any map of the lines that respects which of them are tag lines, and behind a tag line it does
not depend on what stands before.
-/

namespace CommentProse

variable {α β : Type}

namespace TagSection

/-- The tag with its head and its lines changed. -/
def map (onHead : TagHead → TagHead) (onLine : α → β) (tag : TagSection α) : TagSection β :=
  ⟨onHead tag.head, onLine tag.opening, tag.following.map onLine⟩

@[simp] theorem lines_map (onHead : TagHead → TagHead) (onLine : α → β) (tag : TagSection α) :
    (tag.map onHead onLine).lines = tag.lines.map onLine := rfl

end TagSection

namespace Outline

/-- The outline with its heads and its lines changed. -/
def map (onHead : TagHead → TagHead) (onLine : α → β) (outline : Outline α) : Outline β :=
  ⟨outline.description.map onLine, outline.tags.map (TagSection.map onHead onLine)⟩

theorem ofLines_cons (head? : α → Option TagHead) (line : α) (lines : List α) :
    ofLines head? (line :: lines) = cons head? line (ofLines head? lines) := rfl

theorem ofLines_map {head? : α → Option TagHead} {mappedHead? : β → Option TagHead}
    {onHead : TagHead → TagHead} {onLine : α → β}
    (heads : ∀ line, mappedHead? (onLine line) = (head? line).map onHead) (lines : List α) :
    ofLines mappedHead? (lines.map onLine) = (ofLines head? lines).map onHead onLine := by
  induction lines with
  | nil => rfl
  | cons line lines ih =>
    rw [List.map_cons, ofLines_cons, ofLines_cons, ih, cons, cons, heads]
    cases head? line <;> rfl

/-- Changing heads and lines one by one leaves the numbers. -/
theorem numberedTags_map (onHead : TagHead → TagHead) (onLine : α → β) (outline : Outline α) :
    (outline.map onHead onLine).numberedTags =
      outline.numberedTags.map fun (before, tag) => (before, tag.map onHead onLine) := by
  obtain ⟨description, tags⟩ := outline
  simp only [Outline.map, numberedTags, List.length_map]
  generalize description.length = before
  induction tags generalizing before with
  | nil => rfl
  | cons tag tags ih =>
    simp only [List.map_cons, numberedTags.number, TagSection.lines_map, List.length_map, ih]

/-- From a tag line on, the tags do not depend on the lines before. -/
theorem ofLines_append_cons {head? : α → Option TagHead} {line : α} {head : TagHead}
    (headed : head? line = some head) (front lines : List α) :
    ofLines head? (front ++ line :: lines) =
      ⟨(ofLines head? front).description,
        (ofLines head? front).tags ++ (ofLines head? (line :: lines)).tags⟩ := by
  induction front with
  | nil =>
    rw [List.nil_append, ofLines_cons, cons, headed]
    rfl
  | cons first front ih =>
    rw [List.cons_append, ofLines_cons, ofLines_cons, ih, cons, cons]
    cases head? first <;> rfl

/-- The tags begin with their tag lines, and no other lines are tag lines. -/
theorem head?_of_ofLines (head? : α → Option TagHead) (lines : List α) :
    (∀ line ∈ (ofLines head? lines).description, head? line = none) ∧
      ∀ tag ∈ (ofLines head? lines).tags, head? tag.opening = some tag.head ∧
        ∀ line ∈ tag.following, head? line = none := by
  induction lines with
  | nil => exact ⟨fun _ nowhere => absurd nowhere List.not_mem_nil,
      fun _ nowhere => absurd nowhere List.not_mem_nil⟩
  | cons line lines ih =>
    obtain ⟨description, tags⟩ := ih
    rw [ofLines_cons, cons]
    cases headed : head? line with
    | none => exact ⟨List.forall_mem_cons.mpr ⟨headed, description⟩, tags⟩
    | some head => exact ⟨fun _ nowhere => absurd nowhere List.not_mem_nil,
        List.forall_mem_cons.mpr ⟨⟨headed, description⟩, tags⟩⟩

/-- The lines of the sections: those of the description, then those of each tag. -/
theorem map_snd_sections (outline : Outline α) :
    outline.sections.map Prod.snd = outline.description :: outline.tags.map TagSection.lines := by
  have tags := congrArg (List.map TagSection.lines) (List.zipIdx_map_fst 0 outline.tags)
  rw [List.map_map] at tags
  rw [sections, List.map_cons, List.map_map, ← tags]
  rfl

/-- More tags are more sections. -/
theorem sections_append (description : List α) (tags more : List (TagSection α)) :
    sections ⟨description, tags ++ more⟩ = sections ⟨description, tags⟩ ++
      (more.zipIdx tags.length).map fun (tag, index) => (.tag index tag.name, tag.lines) := by
  simp only [sections, List.zipIdx_append, List.map_append, List.cons_append, Nat.zero_add]

/-- Prose of two sections does not come from the same. -/
theorem nodup_map_fst_sections (outline : Outline α) : (outline.sections.map Prod.fst).Nodup := by
  have numbers := List.pairwise_map.mp (List.nodup_zipIdx_map_snd outline.tags)
  rw [sections, List.map_cons, List.map_map, List.nodup_cons]
  refine ⟨by simp, numbers.map _ fun numbered other apart same => ?_⟩
  exact apart (Origin.tag.inj same).1

theorem mem_of_mem_tags {head? : α → Option TagHead} {lines : List α} {tag : TagSection α}
    (member : tag ∈ (ofLines head? lines).tags) : tag.lines ⊆ lines := by
  intro line among
  rw [← lines_ofLines head? lines]
  exact List.mem_append_right _ (List.mem_flatMap.mpr ⟨tag, member, among⟩)

/-- The sections have all lines, in order. -/
theorem flatMap_sections (outline : Outline α) :
    outline.sections.flatMap Prod.snd = outline.lines := by
  rw [List.flatMap_def, map_snd_sections, List.flatten_cons, ← List.flatMap_def]
  rfl

/-- Each section is a part of the lines. -/
theorem exists_append_of_mem_sections {outline : Outline α} {part : Origin × List α}
    (present : part ∈ outline.sections) :
    ∃ before after, outline.lines = before ++ part.2 ++ after := by
  obtain ⟨front, back, parts⟩ := List.append_of_mem present
  have whole := flatMap_sections outline
  rw [parts, List.flatMap_append, List.flatMap_cons] at whole
  exact ⟨_, _, by rw [← whole, List.append_assoc]⟩

/-- A map that keeps the names of tags keeps where the prose of each section comes from. -/
theorem sections_map {onHead : TagHead → TagHead}
    (names : ∀ head, (onHead head).tagName = head.tagName) (onLine : α → β) (outline : Outline α) :
    (outline.map onHead onLine).sections =
      outline.sections.map fun part => (part.1, part.2.map onLine) := by
  simp only [sections, Outline.map, List.zipIdx_map, List.map_map, List.map_cons]
  congr 1
  apply List.map_congr_left
  intro numbered _
  simp [TagSection.name, TagSection.map, names, TagSection.lines]

end Outline

end CommentProse
