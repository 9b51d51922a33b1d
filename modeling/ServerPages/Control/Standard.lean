import ServerPages.Control.Type

/-! The web controls every site has under the prefix `asp`, with the data types of their
attributes and properties. -/

namespace ServerPages.Standard

def scope : Text := "asp".toList

def webControls : Text := "System.Web.UI.WebControls".toList

/-- An attribute or property and its data type. -/
abbrev Declaration := Text × DataType

def plain (name : String) (kind : DataKind) : Declaration := (name.toList, ⟨kind, none⟩)

/-- a declaration whose type is one of the web control types -/
def keyed (name : String) (kind : DataKind) (key : String) : Declaration :=
  (name.toList, ⟨kind, some (webControls ++ '.' :: key.toList)⟩)

def template (name : String) : Declaration :=
  (name.toList, ⟨.template, some "System.Web.UI.ITemplate".toList⟩)

structure Entry where
  name : String
  /-- whether the control takes the styling attributes -/
  styled : Bool
  childrenAsProperties : Bool
  declarations : List Declaration

def styling : List Declaration :=
  [plain "ID" .string, plain "CssClass" .string, plain "ToolTip" .string,
   plain "Visible" .boolean, plain "Enabled" .boolean, plain "EnableViewState" .boolean,
   plain "Width" .unit, plain "Height" .unit, plain "BackColor" .color, plain "ForeColor" .color]

def entries : List Entry :=
  [⟨"Label", true, false,
    [plain "Text" .string, plain "AssociatedControlID" .string]⟩,
   ⟨"TextBox", true, false,
    [plain "Text" .string, keyed "TextMode" .enum "TextBoxMode", plain "MaxLength" .number,
     plain "Rows" .number, plain "Columns" .number, plain "ReadOnly" .boolean,
     plain "AutoPostBack" .boolean, plain "OnTextChanged" .event]⟩,
   ⟨"Button", true, false,
    [plain "Text" .string, plain "CommandName" .string, plain "CommandArgument" .string,
     plain "CausesValidation" .boolean, plain "ValidationGroup" .string, plain "PostBackUrl" .url,
     plain "OnClientClick" .string, plain "OnClick" .event, plain "OnCommand" .event]⟩,
   ⟨"LinkButton", true, false,
    [plain "Text" .string, plain "CommandName" .string, plain "CommandArgument" .string,
     plain "CausesValidation" .boolean, plain "PostBackUrl" .url, plain "OnClick" .event,
     plain "OnCommand" .event]⟩,
   ⟨"Panel", true, false,
    [plain "DefaultButton" .string, plain "GroupingText" .string,
     keyed "ScrollBars" .enum "ScrollBars"]⟩,
   ⟨"HyperLink", true, false,
    [plain "Text" .string, plain "NavigateUrl" .url, plain "ImageUrl" .url,
     plain "Target" .string]⟩,
   ⟨"Literal", false, false,
    [plain "ID" .string, plain "Visible" .boolean, plain "Text" .string,
     keyed "Mode" .enum "LiteralMode"]⟩,
   ⟨"Image", true, false,
    [plain "ImageUrl" .url, plain "AlternateText" .string]⟩,
   ⟨"CheckBox", true, false,
    [plain "Text" .string, plain "Checked" .boolean, plain "AutoPostBack" .boolean,
     plain "OnCheckedChanged" .event]⟩,
   ⟨"RadioButton", true, false,
    [plain "Text" .string, plain "Checked" .boolean, plain "GroupName" .string,
     plain "AutoPostBack" .boolean, plain "OnCheckedChanged" .event]⟩,
   ⟨"DropDownList", true, false,
    [plain "DataSourceID" .string, plain "DataTextField" .string, plain "DataValueField" .string,
     plain "AutoPostBack" .boolean, plain "OnSelectedIndexChanged" .event]⟩,
   ⟨"ListItem", false, false,
    [plain "Text" .string, plain "Value" .string, plain "Selected" .boolean,
     plain "Enabled" .boolean]⟩,
   ⟨"HiddenField", false, false,
    [plain "ID" .string, plain "Value" .string, plain "OnValueChanged" .event]⟩,
   ⟨"FileUpload", true, false,
    [plain "AllowMultiple" .boolean]⟩,
   ⟨"PlaceHolder", false, false,
    [plain "ID" .string, plain "Visible" .boolean]⟩,
   ⟨"ContentPlaceHolder", false, false,
    [plain "ID" .string]⟩,
   ⟨"RequiredFieldValidator", true, false,
    [plain "ControlToValidate" .string, plain "ErrorMessage" .string, plain "Text" .string,
     plain "ValidationGroup" .string, keyed "Display" .enum "ValidatorDisplay"]⟩,
   ⟨"ValidationSummary", true, false,
    [plain "HeaderText" .string, plain "ShowMessageBox" .boolean, plain "ValidationGroup" .string]⟩,
   ⟨"Repeater", false, true,
    [plain "ID" .string, plain "Visible" .boolean, plain "DataSourceID" .string,
     plain "OnItemCommand" .event, plain "OnItemDataBound" .event, template "HeaderTemplate",
     template "ItemTemplate", template "AlternatingItemTemplate", template "SeparatorTemplate",
     template "FooterTemplate"]⟩,
   ⟨"GridView", true, true,
    [plain "AutoGenerateColumns" .boolean, plain "AllowPaging" .boolean,
     plain "AllowSorting" .boolean, plain "PageSize" .number, plain "DataKeyNames" .string,
     plain "DataSourceID" .string, plain "OnRowCommand" .event, plain "OnRowDataBound" .event,
     plain "OnPageIndexChanging" .event, keyed "Columns" .collection "DataControlFieldCollection",
     template "EmptyDataTemplate", keyed "HeaderStyle" .object "TableItemStyle",
     keyed "RowStyle" .object "TableItemStyle",
     keyed "AlternatingRowStyle" .object "TableItemStyle",
     keyed "PagerSettings" .object "PagerSettings"]⟩,
   ⟨"BoundField", false, true,
    [plain "DataField" .string, plain "HeaderText" .string, plain "DataFormatString" .string,
     plain "SortExpression" .string, plain "ReadOnly" .boolean, plain "Visible" .boolean]⟩,
   ⟨"TemplateField", false, true,
    [plain "HeaderText" .string, plain "SortExpression" .string, plain "Visible" .boolean,
     template "HeaderTemplate", template "ItemTemplate", template "EditItemTemplate",
     template "FooterTemplate"]⟩]

def Entry.info (entry : Entry) : ControlInfo :=
  .make ⟨webControls, entry.name.toList⟩ entry.childrenAsProperties
    ((if entry.styled then styling else []) ++ entry.declarations)

def registry : Registry :=
  entries.foldl (fun r entry => Registered.register r scope entry.name.toList entry.info) .empty

end ServerPages.Standard
