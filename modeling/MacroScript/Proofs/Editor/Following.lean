import MacroScript.Editor.Workspace
import Mathlib.Data.List.Induction
import Mathlib.Tactic.SplitIfs

/-!
# A workspace follows its editor

An editor reports each document that it opens, changes or closes, for any number
of documents and in any order. Behind every report, what the workspace holds and
answers about a document, and what it published last about it, is settled by the
latest report of that document alone: reports of other documents and earlier
reports of the same one leave no trace. A document that was closed is like one
that was never opened, except that its remarks were withdrawn.
-/
namespace MacroScript

namespace Workspace

/-- The latest entry of a history that is about a document. -/
def latest? {α : Type} (about : α → String) (uri : String) (history : List α) : Option α :=
  (history.filter fun entry => uri = about entry).getLast?

/-- An entry hides the earlier ones about the same document, and no others. -/
theorem latest?_concat {α : Type} (about : α → String) (uri : String) (history : List α)
    (entry : α) :
    latest? about uri (history ++ [entry]) =
      if uri = about entry then some entry else latest? about uri history := by
  unfold latest?
  split_ifs with h
  · simp [h]
  · simp [h]

/-- What an editor reports about a document, and the limit on the nesting that is in force then. -/
inductive Event where
  | opened (uri text : String) (limit : Int)
  | changed (uri text : String) (limit : Int)
  | closed (uri : String)

namespace Event

def uri : Event → String
  | opened uri _ _ => uri
  | changed uri _ _ => uri
  | closed uri => uri

def document? : Event → Option Document
  | opened _ text limit => some ⟨text, .ofText text limit⟩
  | changed _ text limit => some ⟨text, .ofText text limit⟩
  | closed _ => none

/-- What a report leaves published: the diagnostics of the document, or that there are none. -/
def publication (event : Event) : Publication where
  uri := event.uri
  remarks :=
    match event.document? with
    | some document => document.index.diagnostics.map Remark.ofDiagnostic
    | none => []

/-- What the workspace does about a report. -/
def handle (workspace : Workspace) : Event → Publication × Workspace
  | opened uri text limit => workspace.put uri text limit
  | changed uri text limit => workspace.put uri text limit
  | closed uri => workspace.close uri

variable (workspace : Workspace) (event : Event) (uri : String)

theorem publication_handle : (event.handle workspace).1 = event.publication := by
  cases event with
  | opened other text limit => rfl
  | changed other text limit => rfl
  | closed other => rfl

/-- A report replaces the document that it is about and leaves all others. -/
theorem document?_handle :
    (event.handle workspace).2.document? uri =
      if uri = event.uri then event.document? else workspace.document? uri := by
  cases event with
  | opened other text limit => exact Table.find?_insert workspace.documents other uri _
  | changed other text limit => exact Table.find?_insert workspace.documents other uri _
  | closed other => exact Table.find?_erase workspace.documents other uri

theorem document?_eq_none_iff {event : Event} : event.document? = none ↔ event = closed event.uri := by
  cases event with
  | opened other text limit => exact ⟨nofun, nofun⟩
  | changed other text limit => exact ⟨nofun, nofun⟩
  | closed other => exact ⟨fun _ => rfl, fun _ => rfl⟩

end Event

/-- A workspace and everything that it has published, first published first. -/
structure Run where
  workspace : Workspace
  published : List Publication

namespace Run

def step (run : Run) (event : Event) : Run where
  workspace := (event.handle run.workspace).2
  published := run.published ++ [(event.handle run.workspace).1]

/-- The run behind these reports, in which nothing was open at first. -/
def after (events : List Event) : Run := events.foldl step ⟨.empty, []⟩

theorem after_concat (events : List Event) (event : Event) :
    after (events ++ [event]) = (after events).step event := by
  simp [after]

variable (events : List Event) (uri : String)

/-- The latest report of a document settles whether it is open, and with which text and index. -/
theorem document?_after :
    (after events).workspace.document? uri =
      (latest? Event.uri uri events).bind Event.document? := by
  induction events using List.reverseRecOn with
  | nil => rfl
  | append_singleton events event ih =>
      rw [after_concat, latest?_concat]
      refine (Event.document?_handle (after events).workspace event uri).trans ?_
      split_ifs with h
      · rfl
      · exact ih

theorem published_after :
    latest? Publication.uri uri (after events).published =
      (latest? Event.uri uri events).map Event.publication := by
  induction events using List.reverseRecOn with
  | nil => rfl
  | append_singleton events event ih =>
      have hlast : (after (events ++ [event])).published =
          (after events).published ++ [event.publication] := by
        rw [after_concat, ← Event.publication_handle (after events).workspace event]
        rfl
      have huri : event.publication.uri = event.uri := rfl
      rw [hlast, latest?_concat, latest?_concat, huri]
      split_ifs with h
      · rfl
      · exact ih

theorem mem_names_after :
    uri ∈ (after events).workspace.documents.names ↔
      ∃ event, latest? Event.uri uri events = some event ∧ event ≠ .closed event.uri := by
  have hfind : (after events).workspace.documents.find? uri =
      (latest? Event.uri uri events).bind Event.document? := document?_after events uri
  have hnone := (after events).workspace.documents.find?_eq_none_iff uri
  rw [hfind] at hnone
  rw [← not_iff_not, ← hnone]
  cases hlatest : latest? Event.uri uri events with
  | none => simp
  | some event => simp [Event.document?_eq_none_iff]

end Run

/-- Behind any reports, a workspace holds the documents whose latest report is not a closing, each
as its latest report gives it and with the index of that text. That report also settles what was
published last about the document and all answers about it. -/
theorem follows_editor (events : List Event) (uri : String) :
    let run := Run.after events
    let latest := latest? Event.uri uri events
    let document? := latest.bind Event.document?
    (uri ∈ run.workspace.documents.names ↔
      ∃ event, latest = some event ∧ event ≠ .closed event.uri) ∧
    run.workspace.document? uri = document? ∧
    latest? Publication.uri uri run.published = latest.map Event.publication ∧
    (∀ position, run.workspace.hover uri position =
      document?.elim (.ok none) fun document => document.hover position) ∧
    run.workspace.completions uri =
      document?.elim [] (fun document => document.index.completions) ∧
    (∀ position, run.workspace.signatureHelp uri position =
      document?.bind fun document => document.signatureHelp position) ∧
    run.workspace.outline uri = document?.map fun document => document.index.outline := by
  intro run latest document?
  have hopen : run.workspace.document? uri = document? := Run.document?_after events uri
  refine ⟨Run.mem_names_after events uri, hopen, Run.published_after events uri, ?_, ?_, ?_, ?_⟩
  · intro position
    rw [Workspace.hover, hopen]
    cases document? <;> rfl
  · rw [Workspace.completions, hopen]
    cases document? <;> rfl
  · intro position
    rw [Workspace.signatureHelp, hopen]
  · rw [Workspace.outline, hopen]

end Workspace
end MacroScript
