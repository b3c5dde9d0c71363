import MarkupActions.Family.Basic

/-!
# Connectors

Settings of the message services. A tag that sets nothing yields no action.
-/

namespace MarkupActions.Family

def telegramAction? (block : Block) : Option Action :=
  let settings : TelegramSettings :=
    { botToken := block.string? ["bot_token", "token"]
      chatId := block.string? ["chat_id"]
      enabled := block.decision? "enabled" }
  if settings = {} then none else some (.telegram settings)

def telegram : Family where
  tags := names ["telegram-config"]
  selfClosing := names ["telegram-config"]
  repairs := [.unterminatedSelfClosing (names ["telegram-config"])]
  extract _ s := (structuralBlocks ["telegram-config"] s).filterMap telegramAction?

def discordAction? (block : Block) : Option Action :=
  let settings : DiscordSettings :=
    { botToken := block.string? ["bot_token", "token"]
      channelId := block.string? ["channel_id"]
      webhookUrl := ((block.value? ["webhook_url", "webhook"]).map Entity.decode).map String.ofList
      enabled := block.decision? "enabled" }
  if settings = {} then none else some (.discord settings)

def discord : Family where
  tags := names ["discord-config"]
  selfClosing := names ["discord-config"]
  repairs := [.unterminatedSelfClosing (names ["discord-config"])]
  extract _ s := (structuralBlocks ["discord-config"] s).filterMap discordAction?

end MarkupActions.Family
