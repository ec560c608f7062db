import ViewCompiler.Catalog

/-!
The libraries that every project can use.
-/

namespace ViewCompiler.Catalog

/-- A text of the given lines. -/
def lines (ls : List String) : Bytes := ls.flatMap fun l => Bytes.ofString l ++ [Ascii.lf]

def systemSource : Bytes := lines [
  "namespace System;",
  "",
  "class Console \x7b",
  "    method WriteLine(string value) \x7b \x7d",
  "\x7d",
  "",
  "class Random \x7b",
  "    method Next() \x7b \x7d",
  "\x7d"]

def httpSource : Bytes := lines [
  "namespace System.Net.Http;",
  "",
  "class HttpClient \x7b",
  "    method GetAsync(string uri) \x7b \x7d",
  "    method CancelPendingRequests() \x7b \x7d",
  "\x7d"]

def httpJsonSource : Bytes := lines [
  "namespace System.Net.Http.Json;",
  "",
  "class JsonContent \x7b",
  "    method Create(string value) \x7b \x7d",
  "\x7d"]

def componentsSource : Bytes := lines [
  "namespace Framework.Components;",
  "",
  "component ComponentBase \x7b",
  "    method StateHasChanged() \x7b \x7d",
  "    method OnInitialized() \x7b \x7d",
  "\x7d",
  "",
  "class NavigationManager \x7b",
  "    method NavigateTo(string uri) \x7b \x7d",
  "\x7d"]

def webSource : Bytes := lines [
  "namespace Framework.Components.Web;",
  "",
  "component PageTitle \x7b",
  "    param fragment ChildContent;",
  "\x7d",
  "",
  "component HeadContent \x7b",
  "    param fragment ChildContent;",
  "\x7d"]

def routingSource : Bytes := lines [
  "namespace Framework.Components.Routing;",
  "",
  "component NavLink \x7b",
  "    param string Href;",
  "    param string ActiveClass;",
  "    param fragment ChildContent;",
  "\x7d"]

def formsSource : Bytes := lines [
  "namespace Framework.Components.Forms;",
  "",
  "component EditForm \x7b",
  "    param callback OnValidSubmit;",
  "    param fragment ChildContent;",
  "\x7d",
  "",
  "component InputText \x7b",
  "    param string Value;",
  "    param callback ValueChanged;",
  "\x7d",
  "",
  "component InputCheckbox \x7b",
  "    param bool Value;",
  "    param callback ValueChanged;",
  "\x7d"]

def toolkitSource : Bytes := lines [
  "namespace Toolkit;",
  "",
  "component ToolkitDialogProvider \x7b",
  "    param bool FullWidth;",
  "    param string MaxWidth;",
  "\x7d",
  "",
  "component ToolkitSnackbarProvider \x7b",
  "\x7d",
  "",
  "component ToolkitButton \x7b",
  "    param string Color;",
  "    param bool Disabled;",
  "    param callback OnClick;",
  "    param fragment ChildContent;",
  "\x7d",
  "",
  "component ToolkitText \x7b",
  "    param string Typo;",
  "    param fragment ChildContent;",
  "\x7d",
  "",
  "component ToolkitNumericField \x7b",
  "    param string Label;",
  "    param int Value;",
  "    param callback ValueChanged;",
  "\x7d",
  "",
  "class ISnackbar \x7b",
  "    method Add(string message) \x7b \x7d",
  "\x7d",
  "",
  "class IDialogService \x7b",
  "    method Show(string title) \x7b \x7d",
  "\x7d"]

def serverSource : Bytes := lines [
  "namespace Framework.Server;",
  "",
  "class HostEnvironment \x7b",
  "    method Stop() \x7b \x7d",
  "\x7d"]

/-- The libraries that come with the compiler. -/
def builtin : Catalog := ofList [
  { name := "Runtime.Core", sources := [systemSource] },
  { name := "Runtime.Net.Http", dependencies := ["Runtime.Core"], sources := [httpSource] },
  { name := "Runtime.Net.Http.Json", dependencies := ["Runtime.Net.Http"],
    sources := [httpJsonSource] },
  { name := "Framework.Components", dependencies := ["Runtime.Core"],
    sources := [componentsSource] },
  { name := "Framework.Web", dependencies := ["Framework.Components"],
    sources := [webSource, routingSource, formsSource] },
  { name := "Toolkit", dependencies := ["Framework.Web"], sources := [toolkitSource] },
  { name := "Framework.Server", dependencies := ["Framework.Web"], sources := [serverSource] }]

end ViewCompiler.Catalog
