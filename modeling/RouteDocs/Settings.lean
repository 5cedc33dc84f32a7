import RouteDocs.Document.Basic

/-!
# Settings

Everything in a document that does not come from the source text.

## Main definitions

* `Settings`, with its defaults.
* `Settings.info`, `Settings.placeholder`: what the settings put into a document.
* `Settings.override`: another title or description.
* `Configuration`, `Configuration.settings`: settings that may be left out, and the settings they
  stand for.
-/

namespace RouteDocs

/-- What a document says that its source text does not. -/
structure Settings where
  openapiVersion : String := "3.0.2"
  title : String := "Swagger NXSearch"
  description : String := ""
  placeholderType : String := "object"
  placeholderSample : String := "your doc text"
deriving DecidableEq

namespace Settings

/-- The head of a document. -/
def info (s : Settings) : Info := ⟨s.title, s.description⟩

/-- What stands for the schema of a request body. -/
def placeholder (s : Settings) : MediaType := ⟨s.placeholderType, s.placeholderSample⟩

/-- The settings with another title or description, as far as they are given. -/
def override (s : Settings) (title description : Option String) : Settings :=
  { s with title := title.getD s.title, description := description.getD s.description }

end Settings

/-- Settings as a configuration file gives them. -/
structure Configuration where
  openapiVersion : Option String := none
  title : Option String := none
  description : Option String := none
  placeholderType : Option String := none
  placeholderSample : Option String := none
deriving DecidableEq

/-- What the configuration leaves out keeps its default. -/
def Configuration.settings (c : Configuration) : Settings :=
  let s : Settings := {}
  { openapiVersion := c.openapiVersion.getD s.openapiVersion
    title := c.title.getD s.title
    description := c.description.getD s.description
    placeholderType := c.placeholderType.getD s.placeholderType
    placeholderSample := c.placeholderSample.getD s.placeholderSample }

end RouteDocs
